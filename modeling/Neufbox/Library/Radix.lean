import Mathlib.Data.List.DropRight
import Mathlib.Data.Nat.Digits.Defs
import Mathlib.Tactic

/-! # Numbers as words

Arithmetic on little-endian lists of words below a base: carries, the number without its zero words at the top,
comparison, and the estimate of a quotient's next word in a long division. -/
namespace Neufbox.Radix
set_option autoImplicit false
set_option maxHeartbeats 250000
set_option maxRecDepth 120000

variable {b : ℕ}

/-! ## Words -/

/-- Every word is below the base. -/
def Small (b : ℕ) (ds : List ℕ) : Prop := ∀ d ∈ ds, d < b

/-- The word at the top is not zero. -/
def Fixed (ds : List ℕ) : Prop := ds.getLast? ≠ some 0

theorem Small.nil : Small b [] := fun _ h => absurd h List.not_mem_nil

theorem small_cons {d : ℕ} {ds : List ℕ} : Small b (d :: ds) ↔ d < b ∧ Small b ds := List.forall_mem_cons

theorem small_append {ds es : List ℕ} : Small b (ds ++ es) ↔ Small b ds ∧ Small b es := List.forall_mem_append

theorem Small.take {ds : List ℕ} (h : Small b ds) (n : ℕ) : Small b (ds.take n) :=
  fun d hd => h d (List.mem_of_mem_take hd)

theorem Small.drop {ds : List ℕ} (h : Small b ds) (n : ℕ) : Small b (ds.drop n) :=
  fun d hd => h d (List.mem_of_mem_drop hd)

theorem Small.getD {ds : List ℕ} (h : Small b ds) (hb : 0 < b) (i : ℕ) : ds.getD i 0 < b := by
  rw [List.getD_eq_getElem?_getD]
  cases hi : ds[i]? with
  | none => exact hb
  | some d => exact h d (List.mem_of_getElem? hi)

theorem Small.lt {ds : List ℕ} (h : Small b ds) (hb : 1 < b) : Nat.ofDigits b ds < b ^ ds.length :=
  Nat.ofDigits_lt_base_pow_length hb h

/-- A list read word by word from an index on. -/
theorem take_succ_getD (ds : List ℕ) {k : ℕ} (hk : k < ds.length) : ds.take (k + 1) = ds.take k ++ [ds.getD k 0] := by
  rw [List.take_add_one, List.getD_eq_getElem?_getD, List.getElem?_eq_getElem hk]
  rfl

theorem drop_eq_getD_cons (ds : List ℕ) {k : ℕ} (hk : k < ds.length) : ds.drop k = ds.getD k 0 :: ds.drop (k + 1) := by
  rw [List.drop_eq_getElem_cons hk, List.getD_eq_getElem?_getD, List.getElem?_eq_getElem hk]
  rfl

theorem ofDigits_take_succ (ds : List ℕ) {k : ℕ} (hk : k < ds.length) :
    Nat.ofDigits b (ds.take (k + 1)) = Nat.ofDigits b (ds.take k) + b ^ k * ds.getD k 0 := by
  rw [take_succ_getD ds hk, Nat.ofDigits_append, Nat.ofDigits_singleton, List.length_take, Nat.min_eq_left hk.le]

theorem ofDigits_take_drop (ds : List ℕ) {k : ℕ} (hk : k ≤ ds.length) :
    Nat.ofDigits b ds = Nat.ofDigits b (ds.take k) + b ^ k * Nat.ofDigits b (ds.drop k) := by
  conv_lhs => rw [← List.take_append_drop k ds, Nat.ofDigits_append, List.length_take, Nat.min_eq_left hk]

/-- Words written over others from an index on. -/
def write (mem : List ℕ) (i : ℕ) (ws : List ℕ) : List ℕ := mem.take i ++ ws ++ mem.drop (i + ws.length)

theorem write_length {mem ws : List ℕ} {i : ℕ} (h : i + ws.length ≤ mem.length) :
    (write mem i ws).length = mem.length := by
  rw [write, List.length_append, List.length_append, List.length_take, List.length_drop]
  omega

theorem write_take (mem : List ℕ) (i : ℕ) (ws : List ℕ) (h : i ≤ mem.length) :
    (write mem i ws).take (i + ws.length) = mem.take i ++ ws :=
  List.take_left' (by rw [List.length_append, List.length_take, Nat.min_eq_left h])

theorem write_drop {mem ws : List ℕ} {i j : ℕ} (h : i + ws.length ≤ mem.length) (hj : i + ws.length ≤ j) :
    (write mem i ws).drop j = mem.drop j := by
  have hlen : (mem.take i ++ ws).length = i + ws.length := by
    rw [List.length_append, List.length_take, Nat.min_eq_left (by omega)]
  rw [write, List.drop_append, hlen, List.drop_eq_nil_of_le (by omega), List.nil_append, List.drop_drop]
  congr 1
  omega

theorem take_split (ds : List ℕ) (i n : ℕ) : ds.take (i + n) = ds.take i ++ (ds.drop i).take n := List.take_add

/-- What a loop over consecutive indices keeps. -/
theorem foldl_range' {α : Type} {f : α → ℕ → α} {P : ℕ → α → Prop} {s n : ℕ}
    (hstep : ∀ i x, s ≤ i → i < s + n → P i x → P (i + 1) (f x i)) {x : α} (hx : P s x) :
    P (s + n) ((List.range' s n).foldl f x) := by
  induction n generalizing s x with
  | zero => exact hx
  | succ n ih =>
    rw [List.range'_succ, List.foldl_cons, show s + (n + 1) = s + 1 + n from by omega]
    exact ih (fun i x hi hi' => hstep i x (by omega) (by omega)) (hstep s x le_rfl (by omega) hx)

/-! ## The zero words at the top -/

/-- The words without the zeros at the top. -/
def fixTop (ds : List ℕ) : List ℕ := ds.rdropWhile (· = 0)

theorem fixTop_concat (ds : List ℕ) (d : ℕ) : fixTop (ds ++ [d]) = if d = 0 then fixTop ds else ds ++ [d] := by
  rw [fixTop, List.rdropWhile_concat]
  simp only [decide_eq_true_eq]
  rfl

theorem fixTop_init (ds : List ℕ) : fixTop ds <+: ds := List.rdropWhile_prefix (fun x => decide (x = 0)) ds

theorem fixTop_fixed (ds : List ℕ) : Fixed (fixTop ds) := by
  induction ds using List.reverseRecOn with
  | nil => exact fun h => absurd h (by simp [fixTop])
  | append_singleton ds d ih =>
    rw [fixTop_concat]
    split
    · exact ih
    · next hd =>
      rw [Fixed, List.getLast?_concat]
      exact fun h => hd (Option.some.inj h)

theorem Small.fixTop {ds : List ℕ} (h : Small b ds) : Small b (fixTop ds) :=
  fun d hd => h d ((fixTop_init ds).subset hd)

@[simp] theorem ofDigits_fixTop (ds : List ℕ) : Nat.ofDigits b (fixTop ds) = Nat.ofDigits b ds := by
  induction ds using List.reverseRecOn with
  | nil => rfl
  | append_singleton ds d ih =>
    rw [fixTop_concat]
    split
    · next hd => rw [ih, hd, Nat.ofDigits_append_zero]
    · rfl

theorem fixed_concat {ds : List ℕ} {d : ℕ} : Fixed (ds ++ [d]) ↔ d ≠ 0 := by
  rw [Fixed, List.getLast?_concat, Ne, Option.some.injEq]

theorem fixed_append {es : List ℕ} (ds : List ℕ) (h : es ≠ []) : Fixed (ds ++ es) ↔ Fixed es := by
  rw [Fixed, Fixed, List.getLast?_append_of_ne_nil _ h]

theorem Fixed.nil : Fixed [] := by simp [Fixed]

theorem Fixed.tail {d : ℕ} {ds : List ℕ} (h : Fixed (d :: ds)) : Fixed ds := by
  cases ds with
  | nil => exact Fixed.nil
  | cons e ds => exact (fixed_append [d] (List.cons_ne_nil e ds)).mp h

theorem Fixed.drop {ds : List ℕ} (h : Fixed ds) (n : ℕ) : Fixed (ds.drop n) := by
  by_cases hd : ds.drop n = []
  · rw [hd]
    exact Fixed.nil
  · exact (fixed_append (ds.take n) hd).mp (by rwa [List.take_append_drop])

/-- The top word counts for at least a whole power of the base. -/
theorem Fixed.le {ds : List ℕ} (h : Fixed ds) (hds : ds ≠ []) : b ^ (ds.length - 1) ≤ Nat.ofDigits b ds := by
  obtain ⟨es, e, rfl⟩ := List.eq_nil_or_concat ds |>.resolve_left hds
  rw [List.concat_eq_append] at h ⊢
  have he : 0 < e := Nat.pos_of_ne_zero (fixed_concat.mp h)
  rw [Nat.ofDigits_append, Nat.ofDigits_singleton, List.length_append, List.length_singleton, Nat.add_sub_cancel]
  exact Nat.le_add_left_of_le (Nat.le_mul_of_pos_right _ he)

/-- A number of as many words that is not smaller than the power has its top word. -/
theorem fixed_of_le {ds : List ℕ} (hb : 1 < b) (hsmall : Small b ds)
    (h : ds ≠ [] → b ^ (ds.length - 1) ≤ Nat.ofDigits b ds) : Fixed ds := by
  rcases List.eq_nil_or_concat ds with rfl | ⟨es, e, rfl⟩
  · exact fun h => absurd h (by simp)
  · rw [List.concat_eq_append] at h hsmall ⊢
    rw [fixed_concat]
    rintro rfl
    have hlt := (small_append.mp hsmall).1.lt hb
    have hle := h (by simp)
    rw [Nat.ofDigits_append_zero, List.length_append, List.length_singleton, Nat.add_sub_cancel] at hle
    omega

theorem Fixed.length_lt {ds es : List ℕ} (hb : 1 < b) (hds : Small b ds) (hes : Fixed es) (h : ds.length < es.length) :
    Nat.ofDigits b ds < Nat.ofDigits b es := by
  have hne : es ≠ [] := List.ne_nil_of_length_pos (by omega)
  calc Nat.ofDigits b ds < b ^ ds.length := hds.lt hb
    _ ≤ b ^ (es.length - 1) := Nat.pow_le_pow_right (by omega) (by omega)
    _ ≤ _ := hes.le hne

theorem Fixed.eq {ds es : List ℕ} (hb : 1 < b) (hds : Small b ds) (hds' : Fixed ds) (hes : Small b es) (hes' : Fixed es)
    (h : Nat.ofDigits b ds = Nat.ofDigits b es) : ds = es := by
  have hlen : ds.length = es.length := by
    rcases Nat.lt_trichotomy ds.length es.length with hlt | heq | hgt
    · exact absurd h (hes'.length_lt hb hds hlt).ne
    · exact heq
    · exact absurd h (hds'.length_lt hb hes hgt).ne'
  exact Nat.ofDigits_inj_of_len_eq hb hlen hds hes h

theorem Fixed.eq_nil {ds : List ℕ} (hb : 1 < b) (h : Fixed ds) (hzero : Nat.ofDigits b ds = 0) : ds = [] := by
  by_contra hds
  have hle := h.le (b := b) hds
  have hpos : 0 < b ^ (ds.length - 1) := Nat.pow_pos (by omega)
  omega

/-! ## Comparison -/

/-- The first difference of words read from the top down. -/
def compareDown : List ℕ → List ℕ → ℤ
  | d :: ds, e :: es => if d ≠ e then (if d > e then 1 else -1) else compareDown ds es
  | _, _ => 0

theorem compareDown_spec {ds es : List ℕ} (hb : 1 < b) (hds : Small b ds) (hes : Small b es)
    (hlen : ds.length = es.length) :
    (compareDown ds.reverse es.reverse < 0 ↔ Nat.ofDigits b ds < Nat.ofDigits b es) ∧
      (compareDown ds.reverse es.reverse = 0 ↔ Nat.ofDigits b ds = Nat.ofDigits b es) := by
  induction ds using List.reverseRecOn generalizing es with
  | nil =>
    rw [List.length_nil, eq_comm, List.length_eq_zero_iff] at hlen
    rw [hlen]
    simp [compareDown]
  | append_singleton ds d ih =>
    rcases List.eq_nil_or_concat es with rfl | ⟨es, e, rfl⟩
    · exact absurd hlen (by simp)
    · rw [List.concat_eq_append] at hes hlen ⊢
      obtain ⟨hds, hd⟩ := small_append.mp hds
      obtain ⟨hes, he⟩ := small_append.mp hes
      rw [List.length_append, List.length_append, List.length_singleton, List.length_singleton] at hlen
      have hlen' : ds.length = es.length := by omega
      obtain ⟨hlt, heq⟩ := ih hds hes hlen'
      rw [List.reverse_append, List.reverse_append, List.reverse_singleton, List.reverse_singleton,
        List.singleton_append, List.singleton_append, compareDown, Nat.ofDigits_append, Nat.ofDigits_append,
        Nat.ofDigits_singleton, Nat.ofDigits_singleton, hlen']
      have hlow := hds.lt hb
      have hlow' := hes.lt hb
      rw [hlen'] at hlow
      rcases Nat.lt_trichotomy d e with h | h | h
      · have hmul : b ^ es.length * d + b ^ es.length ≤ b ^ es.length * e := by
          rw [← Nat.mul_succ]
          exact Nat.mul_le_mul_left _ h
        rw [if_pos h.ne, if_neg h.not_gt]
        constructor <;> omega
      · rw [if_neg (not_not.mpr h), h, hlt, heq]
        constructor <;> omega
      · have hmul : b ^ es.length * e + b ^ es.length ≤ b ^ es.length * d := by
          rw [← Nat.mul_succ]
          exact Nat.mul_le_mul_left _ h
        rw [if_pos h.ne', if_pos h]
        constructor <;> omega

/-! ## Carries -/

/-- A sum of two words and its carry, as a sum less than the summand shows it. -/
def addCarry (b x y : ℕ) : ℕ × ℕ := ((x + y) % b, if (x + y) % b < y then 1 else 0)

theorem addCarry_lt (hb : 0 < b) (x y : ℕ) : (addCarry b x y).1 < b := Nat.mod_lt _ hb

theorem addCarry_le (x y : ℕ) : (addCarry b x y).2 ≤ 1 := by
  rw [addCarry]
  dsimp only
  split <;> omega

theorem addCarry_eq {x y : ℕ} (hx : x < b) (hy : y < b) : (addCarry b x y).1 + b * (addCarry b x y).2 = x + y := by
  rw [addCarry]
  dsimp only
  rcases Nat.lt_or_ge (x + y) b with h | h
  · rw [Nat.mod_eq_of_lt h, if_neg (by omega), Nat.mul_zero, Nat.add_zero]
  · rw [Nat.mod_eq_sub_mod h, Nat.mod_eq_of_lt (by omega), if_pos (by omega)]
    omega

/-- A word and what is carried, where both together stand for a number below the square of the base. -/
theorem pair_mod {lo hi v : ℕ} (hlo : lo < b) (h : lo + b * hi = v) (hv : v < b * b) : (lo, hi % b) = (v % b, v / b) := by
  have hb : 0 < b := by omega
  have hmod : v % b = lo := by rw [← h, Nat.add_mul_mod_self_left, Nat.mod_eq_of_lt hlo]
  have hdiv : v / b = hi := by
    rw [← h, Nat.add_mul_div_left _ _ hb, Nat.div_eq_of_lt hlo, Nat.zero_add]
  have hlt : hi < b := hdiv ▸ Nat.div_lt_of_lt_mul hv
  rw [hmod, hdiv, Nat.mod_eq_of_lt hlt]

/-! ## Quotients from the upper digits -/

/-- Both numbers cut short by the same: the quotient does not get smaller. -/
theorem div_le_cut {n d e : ℕ} (hd : 0 < d / e) : n / d ≤ n / e / (d / e) := by
  have he : 0 < e := (Nat.div_pos_iff.mp hd).1
  refine (Nat.le_div_iff_mul_le hd).mpr ((Nat.le_div_iff_mul_le he).mpr ?_)
  calc n / d * (d / e) * e = n / d * (d / e * e) := Nat.mul_assoc _ _ _
    _ ≤ n / d * d := Nat.mul_le_mul_left _ (Nat.div_mul_le_self d e)
    _ ≤ n := Nat.div_mul_le_self n d

/-- It gets larger by one at most, as long as it is no larger than the divisor. -/
theorem cut_le_succ {n d e q : ℕ} (hd : 0 < d / e) (hq : q * (d / e) ≤ n / e) (hle : q ≤ d / e) : q ≤ n / d + 1 := by
  have he : 0 < e := (Nat.div_pos_iff.mp hd).1
  have hdpos : 0 < d := he.trans_le (Nat.div_pos_iff.mp hd).2
  cases q with
  | zero => exact Nat.zero_le _
  | succ q =>
    refine Nat.succ_le_succ ((Nat.le_div_iff_mul_le hdpos).mpr ?_)
    have hup : d ≤ (d / e + 1) * e := (Nat.lt_mul_of_div_lt (Nat.lt_succ_self _) he).le
    calc q * d ≤ q * ((d / e + 1) * e) := Nat.mul_le_mul_left _ hup
      _ = (q * (d / e) + q) * e := by ring
      _ ≤ (q + 1) * (d / e) * e := by
        refine Nat.mul_le_mul_right _ ?_
        rw [Nat.add_mul, Nat.one_mul]
        omega
      _ ≤ n / e * e := Nat.mul_le_mul_right _ hq
      _ ≤ n := Nat.div_mul_le_self n e

/-- A number with one more digit below it, cut short. -/
theorem cons_div {x n e : ℕ} (hx : x < b) : (x + b * n) / e = n / e * b + (x + b * n) / e % b := by
  have hdiv : (x + b * n) / e / b = n / e := by
    rw [Nat.div_div_eq_div_mul, Nat.mul_comm e, ← Nat.div_div_eq_div_mul, Nat.add_mul_div_left _ _ (by omega),
      Nat.div_eq_of_lt hx, Nat.zero_add]
  rw [← hdiv, Nat.div_add_mod']

/-- Where the top digits agree, the largest digit is too large by one at most, given a divisor whose top digit is half
the base. -/
theorem pred_base_le {x n d e : ℕ} (he : 0 < e) (hd : 0 < d) (heq : n / e = d / e) (htop : b ≤ 2 * (d / e)) :
    b - 1 ≤ (x + b * n) / d + 1 := by
  rcases Nat.lt_or_ge b 2 with hb | hb
  · exact (show b - 1 ≤ 1 by omega).trans (Nat.le_add_left 1 _)
  · obtain ⟨m, hm⟩ := Nat.exists_eq_add_of_le' hb
    have hup : d < (d / e + 1) * e := Nat.lt_mul_of_div_lt (Nat.lt_succ_self _) he
    have hmul : m * d ≤ x + b * n := by
      calc m * d ≤ m * ((d / e + 1) * e) := Nat.mul_le_mul_left _ hup.le
        _ = (m * (d / e) + m) * e := by ring
        _ ≤ b * (d / e) * e := by
          refine Nat.mul_le_mul_right _ ?_
          rw [hm, Nat.add_mul]
          omega
        _ = b * (n / e * e) := by
          rw [heq]
          ring
        _ ≤ b * n := Nat.mul_le_mul_left _ (Nat.div_mul_le_self n e)
        _ ≤ x + b * n := Nat.le_add_left _ _
    have hle := (Nat.le_div_iff_mul_le hd).mpr hmul
    generalize (x + b * n) / d = q at *
    omega

theorem getD_eq_div {ds : List ℕ} (hb : 0 < b) (hds : Small b ds) (k : ℕ) :
    ds.getD k 0 = Nat.ofDigits b ds / b ^ k % b := by
  rw [Nat.ofDigits_div_pow_eq_ofDigits_drop _ hb _ hds]
  rcases Nat.lt_or_ge k ds.length with hk | hk
  · rw [drop_eq_getD_cons ds hk, Nat.ofDigits_cons, Nat.add_mul_mod_self_left, Nat.mod_eq_of_lt (hds.getD hb k)]
  · rw [List.drop_eq_nil_of_le hk, Nat.ofDigits_nil, Nat.zero_mod, List.getD_eq_getElem?_getD, List.getElem?_eq_none hk]
    rfl

/-- A smaller upper digit makes a number smaller, whatever comes below it. -/
theorem digits_lt {h d l : ℕ} (hl : l < b) (hlt : h < d) : h * b + l < d * b := by
  calc h * b + l < (h + 1) * b := by
        rw [Nat.add_mul, Nat.one_mul]
        exact Nat.add_lt_add_left hl _
    _ ≤ d * b := Nat.mul_le_mul_right _ hlt

theorem cons_lt {x n d : ℕ} (hx : x < b) (hlt : n < d) : x + b * n < b * d := by
  rw [Nat.add_comm, Nat.mul_comm b, Nat.mul_comm b]
  exact digits_lt hx hlt

/-- Two digits are compared from the upper one. -/
theorem two_digits_le {h l r n : ℕ} (hl : l < b) (hn : n < b) : h < r ∨ h = r ∧ l ≤ n ↔ h * b + l ≤ r * b + n := by
  rcases Nat.lt_trichotomy h r with hlt | rfl | hgt
  · exact iff_of_true (Or.inl hlt) ((digits_lt hl hlt).le.trans (Nat.le_add_right _ _))
  · simp
  · exact iff_of_false (by omega) ((digits_lt hn hgt).trans_le (Nat.le_add_right _ _)).not_ge

end Neufbox.Radix
