import Mathlib.Tactic

/-! Rings of `size` slots. A program keeps the index of a slot and a count; the slots in use are the `n` ones from
`start` on, around the end of the ring. Full and empty rings have the same indices and differ in the count only.

* `next`: the index after `i`, as programs step it.
* `dist`: how far a slot is from `start`; slots in use are those with `dist < n`.
* `window`: the contents of the slots in use, first to last.
Nothing here names a program. -/
namespace Neufbox.Ring
set_option autoImplicit false
set_option maxHeartbeats 250000

variable {α : Type} {size start i k n : ℕ}

/-! ## Indices -/

def next (size i : ℕ) : ℕ := if i + 1 = size then 0 else i + 1

def dist (size start i : ℕ) : ℕ := if start ≤ i then i - start else i + size - start

theorem next_lt (h : i < size) : next size i < size := by
  unfold next
  split <;> omega

theorem next_eq_mod (h : i < size) : next size i = (i + 1) % size := by
  unfold next
  split
  · next he => rw [he, Nat.mod_self]
  · rw [Nat.mod_eq_of_lt (by omega)]

theorem add_mod (hs : start < size) (hk : k ≤ size) :
    (start + k) % size = if start + k < size then start + k else start + k - size := by
  split
  · next h => rw [Nat.mod_eq_of_lt h]
  · rw [Nat.mod_eq_sub_mod (by omega), Nat.mod_eq_of_lt (by omega)]

theorem next_add_mod (h : 0 < size) (start k : ℕ) : next size ((start + k) % size) = (start + (k + 1)) % size := by
  rw [next_eq_mod (Nat.mod_lt _ h), Nat.mod_add_mod, Nat.add_assoc]

theorem add_next_mod (hs : start < size) (k : ℕ) : (next size start + k) % size = (start + (k + 1)) % size := by
  rw [next_eq_mod hs, Nat.mod_add_mod, Nat.add_assoc, Nat.add_comm 1 k]

/-! ## The slots in use -/

theorem dist_lt (hs : start < size) (hi : i < size) : dist size start i < size := by
  unfold dist
  split <;> omega

theorem dist_add (hs : start < size) (hk : k < size) : dist size start ((start + k) % size) = k := by
  rw [add_mod hs hk.le]
  unfold dist
  split <;> split <;> omega

theorem add_dist (hs : start < size) (hi : i < size) : (start + dist size start i) % size = i := by
  rw [add_mod hs (dist_lt hs hi).le]
  unfold dist
  split <;> split <;> omega

/-- The slots in use, by their distance. -/
theorem exists_slot_iff (hs : start < size) (hi : i < size) (hn : n ≤ size) :
    (∃ k < n, i = (start + k) % size) ↔ dist size start i < n := by
  constructor
  · rintro ⟨k, hk, rfl⟩
    rwa [dist_add hs (by omega)]
  · intro h
    exact ⟨dist size start i, h, (add_dist hs hi).symm⟩

theorem dist_self (size start : ℕ) : dist size start start = 0 := by
  rw [dist, if_pos (le_refl _), Nat.sub_self]

/-- One step of `start` makes every other slot one nearer. -/
theorem dist_next (hs : start < size) (hi : i < size) (hne : i ≠ start) :
    dist size (next size start) i + 1 = dist size start i := by
  unfold dist next
  split <;> split <;> split <;> omega

theorem dist_next_self (hs : start < size) : dist size (next size start) start + 1 = size := by
  unfold dist next
  split <;> split <;> omega

/-- The first slot leaves the slots in use. -/
theorem dist_pop (hs : start < size) (hi : i < size) (hn : n < size) :
    dist size (next size start) i < n ↔ dist size start i < n + 1 ∧ i ≠ start := by
  by_cases hne : i = start
  · subst hne
    have hself := dist_next_self hs
    simp only [ne_eq, not_true_eq_false, and_false, iff_false]
    omega
  · have hstep := dist_next hs hi hne
    simp only [ne_eq, hne, not_false_eq_true, and_true]
    omega

/-- The slot behind the last one comes into use. -/
theorem dist_push (hs : start < size) (hi : i < size) (hn : n < size) :
    dist size start i < n + 1 ↔ dist size start i < n ∨ i = (start + n) % size := by
  constructor
  · intro h
    by_cases hlt : dist size start i < n
    · exact Or.inl hlt
    · right
      have he : dist size start i = n := by omega
      rw [← he, add_dist hs hi]
  · rintro (h | rfl)
    · omega
    · rw [dist_add hs hn]
      omega

/-- A slot in use is not the one behind the last. -/
theorem ne_of_dist_lt (hs : start < size) (hn : n < size) (h : dist size start i < n) : i ≠ (start + n) % size := by
  rintro rfl
  rw [dist_add hs hn] at h
  omega

/-! ## Contents -/

def window (size start n : ℕ) (f : ℕ → α) : List α := (List.range n).map fun k => f ((start + k) % size)

@[simp] theorem window_zero (size start : ℕ) (f : ℕ → α) : window size start 0 f = [] := rfl

theorem window_pop (hs : start < size) (n : ℕ) (f : ℕ → α) :
    window size start (n + 1) f = f start :: window size (next size start) n f := by
  rw [window, List.range_succ_eq_map, List.map_cons, List.map_map, Nat.add_zero, Nat.mod_eq_of_lt hs, window]
  congr 1
  apply List.map_congr_left
  intro k _
  show f ((start + (k + 1)) % size) = _
  rw [add_next_mod hs]

theorem window_push (size start n : ℕ) (f : ℕ → α) :
    window size start (n + 1) f = window size start n f ++ [f ((start + n) % size)] := by
  rw [window, List.range_succ, List.map_append, List.map_singleton, window]

theorem window_congr {f g : ℕ → α} (hs : start < size) (hn : n ≤ size)
    (h : ∀ i < size, dist size start i < n → f i = g i) : window size start n f = window size start n g := by
  apply List.map_congr_left
  intro k hk
  rw [List.mem_range] at hk
  exact h _ (Nat.mod_lt _ (by omega)) (by rwa [dist_add hs (by omega)])

end Neufbox.Ring
