import Mathlib.Tactic

/-! A store of consecutive cells, as a list, and the block copies into it. `overlay m off bs` is
the store after `bs` was copied to the cells from `off` on; when the block does not fit, the
store gets longer, so a copy past the end is visible in the length. -/
namespace Neufbox.ByteStore
set_option autoImplicit false
set_option maxHeartbeats 250000

variable {α : Type}

def overlay (m : List α) (off : ℕ) (bs : List α) : List α :=
  m.take off ++ (bs ++ m.drop (off + bs.length))

@[simp] theorem overlay_nil (m : List α) (off : ℕ) : overlay m off [] = m := by
  simp [overlay]

theorem overlay_length {m : List α} {off : ℕ} {bs : List α} (h : off + bs.length ≤ m.length) :
    (overlay m off bs).length = m.length := by
  simp only [overlay, List.length_append, List.length_take, List.length_drop]
  omega

theorem overlay_get_outside {m : List α} {off : ℕ} {bs : List α} (h : off + bs.length ≤ m.length)
    {x : ℕ} (hx : x < off ∨ off + bs.length ≤ x) : (overlay m off bs)[x]? = m[x]? := by
  have hlen : (m.take off).length = off := by simp; omega
  rcases hx with hx | hx
  · rw [overlay, List.getElem?_append_left (by omega), List.getElem?_take_of_lt hx]
  · rw [overlay, List.getElem?_append_right (by omega), List.getElem?_append_right (by omega),
      List.getElem?_drop]
    congr 1
    omega

theorem overlay_get_inside {m : List α} {off : ℕ} {bs : List α} (h : off + bs.length ≤ m.length)
    {j : ℕ} (hj : j < bs.length) : (overlay m off bs)[off + j]? = bs[j]? := by
  have hlen : (m.take off).length = off := by simp; omega
  rw [overlay, List.getElem?_append_right (by omega), hlen, Nat.add_sub_cancel_left,
    List.getElem?_append_left hj]

theorem overlay_again {m : List α} {off : ℕ} {xs ys : List α} (h : off + xs.length ≤ m.length)
    (hlen : ys.length = xs.length) : overlay (overlay m off xs) off ys = overlay m off ys := by
  have htake : (m.take off).length = off := by rw [List.length_take]; omega
  rw [overlay, overlay, List.take_left' htake, ← List.drop_drop, List.drop_left' htake, List.drop_left' hlen.symm,
    ← hlen, overlay]

theorem overlay_slice {m : List α} {off : ℕ} (bs : List α) (h : off ≤ m.length) :
    ((overlay m off bs).drop off).take bs.length = bs := by
  rw [overlay, List.drop_left' (List.length_take_of_le h), List.take_left]

/-- A part of the store in front of the copy. -/
theorem overlay_before {m : List α} {off d n : ℕ} {bs : List α} (hoff : off ≤ m.length) (h : d + n ≤ off) :
    ((overlay m off bs).drop d).take n = (m.drop d).take n := by
  have htake : (m.take off).length = off := List.length_take_of_le hoff
  rw [overlay, List.drop_append_of_le_length (by omega), List.take_append_of_le_length
    (by rw [List.length_drop]; omega), List.drop_take, List.take_take, Nat.min_eq_left (by omega)]

/-- A part of the store with the copy in it. -/
theorem overlay_part {m : List α} {off d n : ℕ} {bs : List α} (h : off + d + bs.length ≤ m.length)
    (hn : d + bs.length ≤ n) :
    ((overlay m (off + d) bs).drop off).take n =
      (m.drop off).take d ++ (bs ++ (m.drop (off + d + bs.length)).take (n - d - bs.length)) := by
  have htake : (m.take (off + d)).drop off = (m.drop off).take d := by
    rw [List.drop_take, Nat.add_sub_cancel_left]
  have hlen : ((m.drop off).take d).length = d := by rw [List.length_take, List.length_drop]; omega
  rw [overlay, List.drop_append_of_le_length (by rw [List.length_take]; omega), htake, List.take_append, hlen,
    List.take_of_length_le (show ((m.drop off).take d).length ≤ n by omega), List.take_append,
    List.take_of_length_le (show bs.length ≤ n - d by omega)]

/-- A copy within a part of the store. -/
theorem overlay_within {m : List α} {off d n : ℕ} {bs : List α} (hn : off + n ≤ m.length) (h : d + bs.length ≤ n) :
    ((overlay m (off + d) bs).drop off).take n = overlay ((m.drop off).take n) d bs := by
  have hd : min d n = d := Nat.min_eq_left (by omega)
  have hrest : n - d - bs.length = n - (d + bs.length) := Nat.sub_sub n d bs.length
  rw [overlay_part (by omega) h, overlay, List.take_take, hd, List.drop_take, List.drop_drop, hrest, Nat.add_assoc]

theorem overlay_append {m : List α} {off : ℕ} (h : off ≤ m.length) (xs ys : List α) :
    overlay (overlay m off xs) (off + xs.length) ys = overlay m off (xs ++ ys) := by
  have hlen : (m.take off ++ xs).length = off + xs.length := by
    rw [List.length_append, List.length_take]
    omega
  have hsplit : overlay m off xs = (m.take off ++ xs) ++ m.drop (off + xs.length) := by
    rw [overlay, List.append_assoc]
  have hdrop : ((m.take off ++ xs) ++ m.drop (off + xs.length)).drop (off + xs.length + ys.length) =
      m.drop (off + (xs ++ ys).length) := by
    rw [← List.drop_drop, List.drop_left' hlen, List.drop_drop, List.length_append, Nat.add_assoc]
  rw [hsplit, overlay, List.take_left' hlen, hdrop, overlay, List.append_assoc, List.append_assoc]

/-- A slice of a block is found where the block lies. -/
theorem slice_of_take {m bs : List α} {n d : ℕ} (r : List α) (hbs : m.take n = bs)
    (hr : (bs.drop d).take r.length = r) : (m.drop d).take r.length = r := by
  rw [← hbs, List.drop_take, List.take_take] at hr
  have hlen := congrArg List.length hr
  rw [List.length_take] at hlen
  have hmin : min r.length (n - d) = r.length := by omega
  rwa [hmin] at hr

/-! ## Several copies, one after the other -/

def overlays (m : List α) (ws : List (ℕ × List α)) : List α := ws.foldl (fun m w => overlay m w.1 w.2) m

section Overlays
variable {m : List α} {ws : List (ℕ × List α)}

theorem overlays_append (m : List α) (ws vs : List (ℕ × List α)) :
    overlays m (ws ++ vs) = overlays (overlays m ws) vs := List.foldl_append

theorem overlays_length (h : ∀ w ∈ ws, w.1 + w.2.length ≤ m.length) :
    (overlays m ws).length = m.length := by
  induction ws generalizing m with
  | nil => rfl
  | cons w ws ih =>
    have hlen := overlay_length (h w List.mem_cons_self)
    have hrest : ∀ v ∈ ws, v.1 + v.2.length ≤ (overlay m w.1 w.2).length := by
      intro v hv
      rw [hlen]
      exact h v (List.mem_cons_of_mem w hv)
    exact (ih hrest).trans hlen

theorem overlays_get_outside (h : ∀ w ∈ ws, w.1 + w.2.length ≤ m.length) {x : ℕ}
    (hx : ∀ w ∈ ws, x < w.1 ∨ w.1 + w.2.length ≤ x) : (overlays m ws)[x]? = m[x]? := by
  induction ws generalizing m with
  | nil => rfl
  | cons w ws ih =>
    have hw := h w List.mem_cons_self
    have hrest : ∀ v ∈ ws, v.1 + v.2.length ≤ (overlay m w.1 w.2).length := by
      intro v hv
      rw [overlay_length hw]
      exact h v (List.mem_cons_of_mem w hv)
    have htail := ih hrest fun v hv => hx v (List.mem_cons_of_mem w hv)
    exact htail.trans (overlay_get_outside hw (hx w List.mem_cons_self))

/-- A cell that one of the copies goes to. -/
def Covered (ws : List (ℕ × List α)) (x : ℕ) : Prop := ∃ w ∈ ws, w.1 ≤ x ∧ x < w.1 + w.2.length

@[simp] theorem covered_nil (x : ℕ) : ¬ Covered ([] : List (ℕ × List α)) x := by
  simp [Covered]

@[simp] theorem covered_cons (w : ℕ × List α) (ws : List (ℕ × List α)) (x : ℕ) :
    Covered (w :: ws) x ↔ (w.1 ≤ x ∧ x < w.1 + w.2.length) ∨ Covered ws x := by
  simp [Covered]

@[simp] theorem covered_append (ws vs : List (ℕ × List α)) (x : ℕ) :
    Covered (ws ++ vs) x ↔ Covered ws x ∨ Covered vs x := by
  simp only [Covered, List.mem_append, or_and_right, exists_or]

theorem free_of_not_covered {x : ℕ} (h : ¬ Covered ws x) : ∀ w ∈ ws, x < w.1 ∨ w.1 + w.2.length ≤ x := by
  intro w hw
  by_contra hin
  exact h ⟨w, hw, by omega, by omega⟩

/-- The result does not depend on what the copies go over. -/
theorem overlays_congr {m' : List α} (hlen : m'.length = m.length) (h : ∀ w ∈ ws, w.1 + w.2.length ≤ m.length)
    (hx : ∀ x, (∀ w ∈ ws, x < w.1 ∨ w.1 + w.2.length ≤ x) → m'[x]? = m[x]?) : overlays m' ws = overlays m ws := by
  induction ws generalizing m m' with
  | nil =>
    apply List.ext_getElem?
    intro x
    exact hx x (by simp)
  | cons w ws ih =>
    have hw := h w List.mem_cons_self
    have hw' : w.1 + w.2.length ≤ m'.length := by rw [hlen]; exact hw
    apply ih ((overlay_length hw').trans (hlen.trans (overlay_length hw).symm))
    · intro v hv
      rw [overlay_length hw]
      exact h v (List.mem_cons_of_mem w hv)
    · intro x hfree
      by_cases hin : x < w.1 ∨ w.1 + w.2.length ≤ x
      · rw [overlay_get_outside hw' hin, overlay_get_outside hw hin]
        apply hx
        intro v hv
        obtain rfl | hv := List.mem_cons.mp hv
        · exact hin
        · exact hfree v hv
      · obtain ⟨j, rfl⟩ := Nat.exists_eq_add_of_le (show w.1 ≤ x by omega)
        rw [overlay_get_inside hw' (by omega), overlay_get_inside hw (by omega)]

/-- Copies and then a change of their cells: the cells that are not left alone are those of the copies. -/
theorem changes_iff [Nontrivial α] {g : List α → List α} {size : ℕ} (hfit : ∀ w ∈ ws, w.1 + w.2.length ≤ size)
    (hg : ∀ m x, m.length = size → ¬ Covered ws x → (g m)[x]? = m[x]?) {x : ℕ} (hx : x < size) :
    (∃ m : List α, m.length = size ∧ (g (overlays m ws))[x]? ≠ m[x]?) ↔ Covered ws x := by
  constructor
  · rintro ⟨m, hm, hne⟩
    by_contra hfree
    have hfit' : ∀ w ∈ ws, w.1 + w.2.length ≤ m.length := by
      rw [hm]
      exact hfit
    apply hne
    rw [hg _ x ((overlays_length hfit').trans hm) hfree, overlays_get_outside hfit' (free_of_not_covered hfree)]
  · intro hcovered
    obtain ⟨a, -⟩ := exists_pair_ne α
    -- the cell is given another value than the one that comes out
    obtain ⟨b, hb⟩ : ∃ b, some b ≠ (g (overlays (List.replicate size a) ws))[x]? := by
      obtain ⟨b, c, hbc⟩ := exists_pair_ne α
      by_cases hb : some b = (g (overlays (List.replicate size a) ws))[x]?
      · exact ⟨c, fun hc => hbc (Option.some.inj (hb.trans hc.symm))⟩
      · exact ⟨b, hb⟩
    have hlen : (List.replicate size a).length = size := List.length_replicate
    have hsame : overlays ((List.replicate size a).set x b) ws = overlays (List.replicate size a) ws := by
      apply overlays_congr List.length_set
      · rw [hlen]
        exact hfit
      · intro y hy
        apply List.getElem?_set_ne
        rintro rfl
        obtain ⟨w, hw, hlow, hhigh⟩ := hcovered
        rcases hy w hw with h | h <;> omega
    refine ⟨(List.replicate size a).set x b, List.length_set.trans hlen, ?_⟩
    rw [hsame, List.getElem?_set_self (by rw [hlen]; exact hx)]
    exact hb.symm

/-- Of a copy that the later ones do not touch in its first `n` cells, these cells are found again. -/
theorem overlays_slice {off n : ℕ} {bs : List α} {vs : List (ℕ × List α)}
    (h : ∀ w ∈ ws ++ (off, bs) :: vs, w.1 + w.2.length ≤ m.length) (hn : n ≤ bs.length)
    (hvs : ∀ v ∈ vs, v.1 + v.2.length ≤ off ∨ off + n ≤ v.1) :
    ((overlays m (ws ++ (off, bs) :: vs)).drop off).take n = bs.take n := by
  have hws : (overlays m ws).length = m.length :=
    overlays_length fun w hw => h w (List.mem_append_left _ hw)
  have hbs : off + bs.length ≤ (overlays m ws).length := by
    rw [hws]
    exact h (off, bs) (List.mem_append_right ws List.mem_cons_self)
  have hlater : ∀ v ∈ vs, v.1 + v.2.length ≤ (overlay (overlays m ws) off bs).length := by
    intro v hv
    rw [overlay_length hbs, hws]
    exact h v (List.mem_append_right ws (List.mem_cons_of_mem _ hv))
  apply List.ext_getElem?
  intro j
  by_cases hj : j < n
  · rw [List.getElem?_take_of_lt hj, List.getElem?_take_of_lt hj, List.getElem?_drop, overlays_append]
    show (overlays (overlay (overlays m ws) off bs) vs)[off + j]? = _
    rw [overlays_get_outside hlater, overlay_get_inside hbs (by omega)]
    intro v hv
    rcases hvs v hv with hv | hv
    · right; omega
    · left; omega
  · rw [List.getElem?_eq_none (by rw [List.length_take]; omega),
      List.getElem?_eq_none (by rw [List.length_take]; omega)]

end Overlays

/-! ## Circular copies

A block of at most `m.length` cells is copied to the cells `n, n + 1, ...` taken modulo the length
of the store, in two pieces: up to the physical end, and then from cell `0`. -/

theorem add_mod_split {size n j : ℕ} (hj : j < size) :
    (n + j) % size = if n % size + j < size then n % size + j else n % size + j - size := by
  have hn : n % size < size := Nat.mod_lt _ (by omega)
  rw [← Nat.mod_add_mod]
  split
  · next h => exact Nat.mod_eq_of_lt h
  · next h => rw [Nat.mod_eq_sub_mod (by omega), Nat.mod_eq_of_lt (by omega)]

theorem mod_ne_of_lt {size i j : ℕ} (hij : i < j) (hd : j < i + size) : i % size ≠ j % size := by
  obtain ⟨d, rfl⟩ : ∃ d, j = i + d := ⟨j - i, by omega⟩
  have hi : i % size < size := Nat.mod_lt _ (by omega)
  rw [add_mod_split (by omega)]
  split <;> omega

/-- The two pieces of a circular copy touch the cells `n % size, (n + 1) % size, ...`. -/
theorem circular_indices {size n len : ℕ} (hlen : len ≤ size) :
    (List.range (min len (size - n % size))).map (n % size + ·) ++
        List.range (len - min len (size - n % size)) =
      (List.range len).map fun j => (n + j) % size := by
  apply List.ext_getElem?
  intro j
  by_cases hj : j < len
  · have hn : n % size < size := Nat.mod_lt _ (by omega)
    rw [List.getElem?_map, List.getElem?_range hj, Option.map_some, add_mod_split (by omega)]
    by_cases hl : j < min len (size - n % size)
    · rw [List.getElem?_append_left (by simpa using hl), List.getElem?_map,
        List.getElem?_range hl, if_pos (by omega), Option.map_some]
    · rw [List.getElem?_append_right (by rw [List.length_map, List.length_range]; omega),
        List.length_map, List.length_range, List.getElem?_range (by omega), if_neg (by omega)]
      congr 1
      omega
  · rw [List.getElem?_eq_none (by simp; omega), List.getElem?_eq_none (by simp; omega)]

def circularOverlay (m : List α) (n : ℕ) (d : List α) : List α :=
  let l := min d.length (m.length - n % m.length)
  overlay (overlay m (n % m.length) (d.take l)) 0 (d.drop l)

section CircularOverlay
variable {m d : List α} {n : ℕ}

theorem circular_pieces (n : ℕ) (hd : d.length ≤ m.length) (hpos : 0 < m.length) :
    n % m.length + (d.take (min d.length (m.length - n % m.length))).length ≤ m.length ∧
      0 + (d.drop (min d.length (m.length - n % m.length))).length ≤
        (overlay m (n % m.length) (d.take (min d.length (m.length - n % m.length)))).length := by
  have hn : n % m.length < m.length := Nat.mod_lt _ hpos
  have hfirst : n % m.length + (d.take (min d.length (m.length - n % m.length))).length ≤ m.length := by
    rw [List.length_take]
    omega
  refine ⟨hfirst, ?_⟩
  rw [overlay_length hfirst, List.length_drop]
  omega

theorem circularOverlay_length (hd : d.length ≤ m.length) :
    (circularOverlay m n d).length = m.length := by
  by_cases hm : m.length = 0
  · have hdnil : d = [] := List.length_eq_zero_iff.mp (by omega)
    simp [circularOverlay, hdnil]
  · obtain ⟨hfirst, hsecond⟩ := circular_pieces n hd (by omega)
    rw [circularOverlay, overlay_length hsecond, overlay_length hfirst]

theorem circularOverlay_get (hd : d.length ≤ m.length) {j : ℕ} (hj : j < d.length) :
    (circularOverlay m n d)[(n + j) % m.length]? = d[j]? := by
  have hn : n % m.length < m.length := Nat.mod_lt _ (by omega)
  obtain ⟨hfirst, hsecond⟩ := circular_pieces n hd (by omega)
  rw [circularOverlay, add_mod_split (by omega)]
  by_cases hl : n % m.length + j < m.length
  · rw [if_pos hl, overlay_get_outside hsecond (Or.inr (by simp; omega)),
      overlay_get_inside hfirst (by simp; omega), List.getElem?_take_of_lt (by omega)]
  · rw [if_neg hl]
    have hin := overlay_get_inside hsecond (j := n % m.length + j - m.length) (by simp; omega)
    rw [Nat.zero_add] at hin
    rw [hin, List.getElem?_drop]
    congr 1
    omega

theorem circularOverlay_get_other (hd : d.length ≤ m.length) {x : ℕ} (hx : x < m.length)
    (hne : ∀ j < d.length, (n + j) % m.length ≠ x) : (circularOverlay m n d)[x]? = m[x]? := by
  have hn : n % m.length < m.length := Nat.mod_lt _ (by omega)
  obtain ⟨hfirst, hsecond⟩ := circular_pieces n hd (by omega)
  -- a cell inside one of the two pieces is the cell of some position of the block
  have houter : 0 + (d.drop (min d.length (m.length - n % m.length))).length ≤ x := by
    by_contra hlt
    simp only [List.length_drop] at hlt
    refine hne (x + m.length - n % m.length) (by omega) ?_
    rw [add_mod_split (by omega), if_neg (by omega)]
    omega
  have hinner : x < n % m.length ∨
      n % m.length + (d.take (min d.length (m.length - n % m.length))).length ≤ x := by
    by_contra hlt
    simp only [List.length_take] at hlt
    refine hne (x - n % m.length) (by omega) ?_
    rw [add_mod_split (by omega), if_pos (by omega)]
    omega
  rw [circularOverlay, overlay_get_outside hsecond (Or.inr houter), overlay_get_outside hfirst hinner]

end CircularOverlay

end Neufbox.ByteStore
