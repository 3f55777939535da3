import Neufbox.Library.Chords
import Neufbox.Library.Rounding
import Neufbox.Library.WrapArith
import Neufbox.Wprobe.Dump

/-! # The statistics of the wireless probe

A driver stores values, `wprobe_update_stats` folds them into count, sum and sum of squares, and a query with a scale
divides these. The library for the users takes the root of the variance, so the three must belong together after any
number of such steps, each of which truncates on its own. The library computes the variance in floats, which are rounded
once more: below zero it can get by these roundings only. -/
namespace Neufbox.Wprobe
open RunAlong Chords Rounding WrapArith
set_option autoImplicit false
set_option maxHeartbeats 250000
set_option maxRecDepth 120000

/-! ## Steps -/

/-- `WPROBE_SET` at the time `msecs`; `raw` is the union behind the store. A store of another type than that of the item
is refused. -/
def wprobeSet (item : WprobeItem) (type : ValueType) (msecs raw : ℕ) (v : WprobeValue) : WprobeValue :=
  if item.type ≠ type then v
  else
    let v := { v with pending := true, raw := raw }
    let v := if v.first = 0 then { v with first := msecs } else v
    { v with first := msecs }

inductive StatOp
  | set (i : ℕ) (type : ValueType) (msecs raw : ℕ)
  | update
  | scale (flags : ℕ) (scaleAttr : Option ℕ)

section Steps
variable (mach : Machine) (items : List WprobeItem)

def statStep (val : Values) : StatOp → Values
  | .set i type msecs raw =>
      match items[i]? with
      | some item => Function.update val i (wprobeSet item type msecs raw (val i))
      | none => val
  | .update => wprobeUpdateStats mach items val
  | .scale flags scaleAttr => wprobeScaleStats items flags scaleAttr val

def Fits64 (x : ℤ) : Prop := -2 ^ 63 ≤ x ∧ x < 2 ^ 63

/-- No sum of a value's statistics leaves its 64 bits. -/
def Value64 (type : ValueType) (v : WprobeValue) : Prop :=
  v.pending = true → ∀ x, sampleOf mach v type = some x →
    Fits64 (v.s + x) ∧ Fits64 (x * x) ∧ Fits64 (v.ss + x * x)

/-- A step without an overflow of 64 bits; a scale is below 2^31. -/
def Exact64 (val : Values) : StatOp → Prop
  | .set _ _ _ _ => True
  | .update => ∀ i item, items[i]? = some item → Value64 mach item.type (val i)
  | .scale _ scaleAttr => ∀ scale, scaleAttr = some scale → scale < 2 ^ 31

/-- The count, too, stays in its 32 bits. -/
def CountFits (val : Values) : StatOp → Prop
  | .set _ _ _ _ => True
  | .update => ∀ i item, items[i]? = some item → (val i).pending = true → (val i).n + 1 < 2 ^ 32
  | .scale flags scaleAttr => ∀ i item, items[i]? = some item → hasFlag item.flags wprobeFKeepstat = true →
      (val i).n / scaleFor flags scaleAttr (val i) + 1 < 2 ^ 32

def ExactStep (val : Values) (op : StatOp) : Prop := Exact64 mach items val op ∧ CountFits items val op

instance Fits64.decidable (x : ℤ) : Decidable (Fits64 x) := inferInstanceAs (Decidable (_ ∧ _))

instance Value64.decidable (type : ValueType) (v : WprobeValue) : Decidable (Value64 mach type v) :=
  decidable_of_iff (v.pending = true → ∀ x ∈ sampleOf mach v type,
    Fits64 (v.s + x) ∧ Fits64 (x * x) ∧ Fits64 (v.ss + x * x)) Iff.rfl

theorem forall_item_iff {P : ℕ → WprobeItem → Prop} :
    (∀ i : Fin items.length, P i items[i]) ↔ ∀ i item, items[i]? = some item → P i item := by
  constructor
  · intro h i item hitem
    obtain ⟨hi, rfl⟩ := List.getElem?_eq_some_iff.mp hitem
    exact h ⟨i, hi⟩
  · exact fun h i => h i _ (List.getElem?_eq_getElem i.2)

instance Exact64.decidable (val : Values) : ∀ op, Decidable (Exact64 mach items val op)
  | .set _ _ _ _ => isTrue trivial
  | .update => decidable_of_iff _ (forall_item_iff items (P := fun i item => Value64 mach item.type (val i)))
  | .scale _ scaleAttr => decidable_of_iff (∀ scale ∈ scaleAttr, scale < 2 ^ 31) Iff.rfl

instance CountFits.decidable (val : Values) : ∀ op, Decidable (CountFits items val op)
  | .set _ _ _ _ => isTrue trivial
  | .update =>
      decidable_of_iff _ (forall_item_iff items (P := fun i _ => (val i).pending = true → (val i).n + 1 < 2 ^ 32))
  | .scale flags scaleAttr =>
      decidable_of_iff _ (forall_item_iff items (P := fun i item => hasFlag item.flags wprobeFKeepstat = true →
        (val i).n / scaleFor flags scaleAttr (val i) + 1 < 2 ^ 32))

instance ExactStep.decidable (val : Values) (op : StatOp) : Decidable (ExactStep mach items val op) :=
  inferInstanceAs (Decidable (_ ∧ _))

end Steps

/-! ## One value -/

/-- The statistics of a value belong together, in 64 bits. -/
structure Sound (v : WprobeValue) : Prop where
  moments : Moments v.n v.s v.ss
  sum : Fits64 v.s
  squares : Fits64 v.ss

theorem asS64_of_fits {x : ℤ} (h : Fits64 x) : asS64 x = x := by
  obtain ⟨hlow, hhigh⟩ := h
  exact signed_of_fits (by omega) (by omega)

theorem fits_zero : Fits64 0 := by
  constructor <;> norm_num

theorem fits_tdiv {x : ℤ} (h : Fits64 x) (k : ℕ) : Fits64 (x.tdiv k) := by
  have habs := Int.natAbs_tdiv_le_natAbs x k
  unfold Fits64 at *
  by_cases hx : 0 ≤ x
  · have hq := Int.tdiv_nonneg hx (Int.natCast_nonneg k)
    omega
  · have hq := Int.tdiv_nonneg (show 0 ≤ -x by omega) (Int.natCast_nonneg k)
    rw [Int.neg_tdiv] at hq
    omega

section Value
variable {mach : Machine} {v : WprobeValue}

theorem sampleOf_n (type : ValueType) (n : ℕ) : sampleOf mach { v with n := n } type = sampleOf mach v type := by
  cases type <;> rfl

/-- `first` is stored to in any case. -/
theorem wprobeSet_eq (item : WprobeItem) (msecs raw : ℕ) :
    wprobeSet item item.type msecs raw v = { v with pending := true, raw := raw, first := msecs } := by
  unfold wprobeSet
  rw [if_neg (not_not_intro rfl)]
  dsimp only
  split_ifs <;> rfl

theorem wprobeSet_sound (h : Sound v) (item : WprobeItem) (type : ValueType) (msecs raw : ℕ) :
    Sound (wprobeSet item type msecs raw v) := by
  by_cases htype : item.type = type
  · rw [← htype, wprobeSet_eq]
    exact ⟨h.moments, h.sum, h.squares⟩
  · rw [wprobeSet, if_pos htype]
    exact h

theorem updateValue_sound {type : ValueType} (h : Sound v) (hfits : Value64 mach type v)
    (hn : v.pending = true → v.n + 1 < 2 ^ 32) : Sound (updateValue mach type v) := by
  unfold updateValue
  by_cases hpending : v.pending = true
  · have hcount : (v.n + 1) % 2 ^ 32 = v.n + 1 := Nat.mod_eq_of_lt (hn hpending)
    rw [if_pos hpending]
    dsimp only
    rw [sampleOf_n, hcount]
    cases hx : sampleOf mach v type with
    | none => exact ⟨h.moments.count, h.sum, h.squares⟩
    | some x =>
      obtain ⟨hs, hxx, hss⟩ := hfits hpending x hx
      dsimp only
      rw [asS64_of_fits hs, asS64_of_fits hxx, asS64_of_fits hss]
      exact ⟨h.moments.add x, hs, hss⟩
  · rw [if_neg hpending]
    exact h

theorem scaleValue_sound {scale : ℕ} (h : Sound v) (hscale : scale < v.n → scale < 2 ^ 31)
    (hn : v.n / scale + 1 < 2 ^ 32) : Sound (scaleValue scale v) := by
  unfold scaleValue
  by_cases hdo : 0 < scale ∧ scale < v.n
  · have hhalf := hscale hdo.2
    have hdivisor : (scale : ℤ).bmod (2 ^ 32) = scale := signed_natCast (by omega)
    have hup : v.n ≤ scale * (v.n / scale + 1) := (Nat.lt_mul_div_succ v.n hdo.1).le
    have hs := fits_tdiv h.sum scale
    have hss := fits_tdiv h.squares scale
    rw [if_pos hdo]
    dsimp only
    rw [hdivisor, asS64_of_fits hs, asS64_of_fits hss, Nat.mod_eq_of_lt hn]
    exact ⟨h.moments.tdiv hdo.1 hup, hs, hss⟩
  · rw [if_neg hdo]
    exact h

end Value

/-! ## The radicand of the library -/

/-- A conversion to `float`, or an operation on floats. The exponents of all values here are in the range of a `float`. -/
def float (x : ℚ) : ℚ := roundBits 24 x

def avgOf (st : Statistics) : ℚ := float (float st.s / float st.n)

/-- What `save_attrdata_handler` passes to `sqrt`. -/
def radicand (st : Statistics) : ℚ :=
  float (float (float st.ss / float st.n) - float (avgOf st * avgOf st))

/-- The same for the statistics of a value, as they are sent. -/
def radicandOf (v : WprobeValue) : ℚ := radicand ⟨v.s, v.ss, v.n⟩

section Radicand
variable {st : Statistics} (hn : 0 < st.n)

include hn in
theorem float_count : 0 < float st.n ∧ (1 - 1 / 2 ^ 24) * (st.n : ℚ) ≤ float st.n ∧
    float st.n ≤ (1 + 1 / 2 ^ 24) * (st.n : ℚ) := by
  have hpos : (0 : ℚ) < st.n := by exact_mod_cast hn
  have hlow := le_roundBits 24 hpos.le
  have hhigh := abs_roundBits_le 24 (st.n : ℚ)
  rw [abs_of_pos hpos] at hhigh
  exact ⟨lt_of_lt_of_le (mul_pos (by norm_num) hpos) hlow, hlow, (le_abs_self _).trans hhigh⟩

include hn in
theorem float_squares_ge (hss : 0 ≤ st.ss) :
    (1 - 1 / 2 ^ 24) ^ 2 / (1 + 1 / 2 ^ 24) * ((st.ss : ℚ) / st.n) ≤ float (float st.ss / float st.n) := by
  obtain ⟨hfn, -, hhigh⟩ := float_count hn
  have hpos : (0 : ℚ) < st.n := by exact_mod_cast hn
  have hss' : (0 : ℚ) ≤ st.ss := by exact_mod_cast hss
  have hfss : (1 - 1 / 2 ^ 24) * (st.ss : ℚ) ≤ float st.ss := le_roundBits 24 hss'
  have hquot : (1 - 1 / 2 ^ 24) * (st.ss : ℚ) / ((1 + 1 / 2 ^ 24) * st.n) ≤ float st.ss / float st.n :=
    div_le_div₀ (roundBits_nonneg 24 hss') hfss hfn hhigh
  have hround := le_roundBits 24 (div_nonneg (roundBits_nonneg 24 hss') hfn.le)
  calc (1 - 1 / 2 ^ 24) ^ 2 / (1 + 1 / 2 ^ 24) * ((st.ss : ℚ) / st.n)
      = (1 - 1 / 2 ^ 24) * ((1 - 1 / 2 ^ 24) * (st.ss : ℚ) / ((1 + 1 / 2 ^ 24) * st.n)) := by
        field_simp
    _ ≤ (1 - 1 / 2 ^ 24) * (float st.ss / float st.n) := mul_le_mul_of_nonneg_left hquot (by norm_num)
    _ ≤ float (float st.ss / float st.n) := hround

include hn in
theorem abs_avgOf_le : |avgOf st| ≤ (1 + 1 / 2 ^ 24) ^ 2 / (1 - 1 / 2 ^ 24) * (|(st.s : ℚ)| / st.n) := by
  obtain ⟨hfn, hlow, -⟩ := float_count hn
  have hpos : (0 : ℚ) < st.n := by exact_mod_cast hn
  have hquot : |float st.s / float st.n| ≤ (1 + 1 / 2 ^ 24) * |(st.s : ℚ)| / ((1 - 1 / 2 ^ 24) * st.n) := by
    rw [abs_div, abs_of_pos hfn]
    exact div_le_div₀ (by positivity) (abs_roundBits_le 24 _) (mul_pos (by norm_num) hpos) hlow
  calc |avgOf st| ≤ (1 + 1 / 2 ^ 24) * |float st.s / float st.n| := abs_roundBits_le 24 _
    _ ≤ (1 + 1 / 2 ^ 24) * ((1 + 1 / 2 ^ 24) * |(st.s : ℚ)| / ((1 - 1 / 2 ^ 24) * st.n)) :=
        mul_le_mul_of_nonneg_left hquot (by norm_num)
    _ = (1 + 1 / 2 ^ 24) ^ 2 / (1 - 1 / 2 ^ 24) * (|(st.s : ℚ)| / st.n) := by
        field_simp

theorem mean_square_le (hn : 0 < st.n) (hsq : st.s * st.s ≤ st.n * st.ss) :
    (|(st.s : ℚ)| / st.n) ^ 2 ≤ (st.ss : ℚ) / st.n := by
  have hpos : (0 : ℚ) < st.n := by exact_mod_cast hn
  have hsq' : (st.s : ℚ) * st.s ≤ st.n * st.ss := by exact_mod_cast hsq
  calc (|(st.s : ℚ)| / st.n) ^ 2 = (st.s : ℚ) * st.s / st.n / st.n := by
        rw [div_pow, sq_abs, sq, sq, div_div]
    _ ≤ st.n * st.ss / st.n / st.n := by
        exact div_le_div_of_nonneg_right (div_le_div_of_nonneg_right hsq' hpos.le) hpos.le
    _ = (st.ss : ℚ) / st.n := by rw [mul_div_cancel_left₀ _ hpos.ne']

include hn in
theorem float_square_le (hsq : st.s * st.s ≤ st.n * st.ss) :
    float (avgOf st * avgOf st) ≤ (1 + 1 / 2 ^ 24) ^ 5 / (1 - 1 / 2 ^ 24) ^ 2 * ((st.ss : ℚ) / st.n) := by
  have hmean := mean_square_le hn hsq
  have habs := abs_avgOf_le hn
  have hround : float (avgOf st * avgOf st) ≤ (1 + 1 / 2 ^ 24) * |avgOf st| ^ 2 := by
    have hle := (le_abs_self _).trans (abs_roundBits_le 24 (avgOf st * avgOf st))
    rw [abs_mul] at hle
    rw [sq]
    exact hle
  have hup : (0 : ℚ) < 1 + 1 / 2 ^ 24 := by norm_num
  have hdown : (0 : ℚ) < 1 - 1 / 2 ^ 24 := by norm_num
  generalize (1 + 1 / 2 ^ 24 : ℚ) = up at *
  generalize (1 - 1 / 2 ^ 24 : ℚ) = down at *
  calc float (avgOf st * avgOf st) ≤ up * |avgOf st| ^ 2 := hround
    _ ≤ up * (up ^ 2 / down * (|(st.s : ℚ)| / st.n)) ^ 2 :=
        mul_le_mul_of_nonneg_left (pow_le_pow_left₀ (abs_nonneg _) habs 2) hup.le
    _ = up ^ 5 / down ^ 2 * (|(st.s : ℚ)| / st.n) ^ 2 := by ring
    _ ≤ up ^ 5 / down ^ 2 * ((st.ss : ℚ) / st.n) := mul_le_mul_of_nonneg_left hmean (by positivity)

include hn in
/-- The radicand is below zero by the roundings only. -/
theorem radicand_ge (hss : 0 ≤ st.ss) (hsq : st.s * st.s ≤ st.n * st.ss) :
    -((st.ss : ℚ) / st.n / 2 ^ 20) ≤ radicand st := by
  have hmean : (0 : ℚ) ≤ (st.ss : ℚ) / st.n := div_nonneg (by exact_mod_cast hss) (Nat.cast_nonneg _)
  have hbelow : -((st.ss : ℚ) / st.n * (12 / 2 ^ 24)) ≤ float (float st.ss / float st.n) - float (avgOf st * avgOf st) := by
    have hless := float_squares_ge hn hss
    have hmore := float_square_le hn hsq
    have hconst : ((1 : ℚ) + 1 / 2 ^ 24) ^ 5 / (1 - 1 / 2 ^ 24) ^ 2 - (1 - 1 / 2 ^ 24) ^ 2 / (1 + 1 / 2 ^ 24) ≤ 12 / 2 ^ 24 := by
      norm_num
    have hscaled := mul_le_mul_of_nonneg_right hconst hmean
    linarith
  have hround := neg_le_roundBits 24 (mul_nonneg hmean (by norm_num)) hbelow
  refine le_trans (neg_le_neg ?_) hround
  have hconst : ((1 : ℚ) + 1 / 2 ^ 24) * (12 / 2 ^ 24) ≤ 1 / 2 ^ 20 := by norm_num
  have hscaled := mul_le_mul_of_nonneg_left hconst hmean
  linarith

end Radicand

/-! ## Runs -/

section Runs
variable {mach : Machine} {items : List WprobeItem}

theorem statStep_sound {val : Values} {op : StatOp} (h : ∀ i, Sound (val i)) (hexact : ExactStep mach items val op)
    (i : ℕ) : Sound (statStep mach items val op i) := by
  obtain ⟨h64, hcount⟩ := hexact
  cases op with
  | set j type msecs raw =>
    simp only [statStep]
    cases hitem : items[j]? with
    | none => exact h i
    | some item =>
      by_cases hij : i = j
      · rw [hij]
        simp only [Function.update_self]
        exact wprobeSet_sound (h j) item type msecs raw
      · simp only [Function.update_of_ne hij]
        exact h i
  | update =>
    simp only [statStep, wprobeUpdateStats]
    cases hitem : items[i]? with
    | none => exact h i
    | some item => exact updateValue_sound (h i) (h64 i item hitem) (hcount i item hitem)
  | scale flags scaleAttr =>
    simp only [statStep, wprobeScaleStats]
    cases hitem : items[i]? with
    | none => exact h i
    | some item =>
      dsimp only
      by_cases hkeep : hasFlag item.flags wprobeFKeepstat = true
      · rw [if_pos hkeep]
        refine scaleValue_sound (h i) ?_ (hcount i item hitem hkeep)
        unfold scaleFor
        split_ifs with hreset
        · intro hlt
          omega
        · cases hattr : scaleAttr with
          | none => simp
          | some scale => exact fun _ => h64 scale hattr
      · rw [if_neg hkeep]
        exact h i

/-- In every state of a run without overflows the sums belong together, the variance is not negative, and its floats are
below zero by the roundings at most. -/
theorem wprobe_variance_consistent (mach : Machine) (items : List WprobeItem) (ops : List StatOp)
    (h : Along (statStep mach items) (ExactStep mach items) (fun _ => {}) ops) (i : ℕ) :
    let v := runSteps (statStep mach items) (fun _ => {}) ops i
    0 ≤ v.ss ∧ v.s * v.s ≤ v.n * v.ss ∧
      (0 < v.n → (0 : ℚ) ≤ (v.ss : ℚ) / v.n - ((v.s : ℚ) / v.n) ^ 2 ∧
        -((v.ss : ℚ) / v.n / 2 ^ 20) ≤ radicandOf v) := by
  have hstart : ∀ i : ℕ, Sound ((fun _ => {} : Values) i) := fun _ => ⟨moments_zero, fits_zero, fits_zero⟩
  have hsound := Along.preserves (fun _ _ hval hexact => statStep_sound hval hexact) hstart h i
  refine ⟨hsound.moments.nonneg, hsound.moments.square_le, fun hn => ⟨hsound.moments.variance_nonneg hn, ?_⟩⟩
  exact radicand_ge hn hsound.moments.nonneg hsound.moments.square_le

end Runs

/-! ## The count -/

def unitItem : WprobeItem := ⟨[], .u8, wprobeFKeepstat⟩

def littleMachine : Machine := ⟨false, 32, fun _ => []⟩

/-- Samples of value one. -/
def ones : ℕ → List StatOp
  | 0 => []
  | n + 1 => ones n ++ [.set 0 .u8 1 1, .update]

def onesValue (n : ℕ) : WprobeValue where
  raw := if n = 0 then 0 else 1
  s := n
  ss := n
  n := n % 2 ^ 32
  first := if n = 0 then 0 else 1

theorem ones_run {n : ℕ} (hn : n < 2 ^ 63) :
    runSteps (statStep littleMachine [unitItem]) (fun _ => {}) (ones n) 0 = onesValue n ∧
      Along (statStep littleMachine [unitItem]) (Exact64 littleMachine [unitItem]) (fun _ => {}) (ones n) := by
  induction n with
  | zero => exact ⟨rfl, trivial⟩
  | succ n ih =>
    obtain ⟨hval, halong⟩ := ih (by omega)
    have hsum : Fits64 ((n : ℤ) + 1) := ⟨by omega, by omega⟩
    have hset : statStep littleMachine [unitItem] (runSteps (statStep littleMachine [unitItem]) (fun _ => {})
        (ones n)) (.set 0 .u8 1 1) 0 = { onesValue n with pending := true, raw := 1, first := 1 } := by
      have heq := wprobeSet_eq unitItem 1 1 (v := onesValue n)
      simp only [statStep, List.getElem?_cons_zero, Function.update_self, hval]
      exact heq
    rw [ones, runSteps_append, along_append]
    generalize runSteps (statStep littleMachine [unitItem]) (fun _ => {}) (ones n) = val at *
    simp only [runSteps_cons, runSteps_nil, along_cons, along_nil, and_true]
    generalize hset' : statStep littleMachine [unitItem] val (.set 0 .u8 1 1) = val' at *
    refine ⟨?_, halong, trivial, ?_⟩
    · simp only [statStep, wprobeUpdateStats, List.getElem?_cons_zero, hset]
      show WprobeValue.mk false 1 (asS64 (n + 1)) (asS64 (n + asS64 1)) ((n % 2 ^ 32 + 1) % 2 ^ 32) 1 0 = _
      have hone : asS64 1 = 1 := asS64_of_fits ⟨by norm_num, by norm_num⟩
      rw [hone, asS64_of_fits hsum, Nat.mod_add_mod]
      simp [onesValue]
    · intro i item hitem
      cases i with
      | zero =>
        obtain rfl : unitItem = item := Option.some.inj hitem
        rw [hset]
        intro _ x hx
        obtain rfl : (1 : ℤ) = x := Option.some.inj hx
        exact ⟨hsum, ⟨by norm_num, by norm_num⟩, hsum⟩
      | succ i => cases hitem

attribute [irreducible] ones

def wideItem : WprobeItem := ⟨[], .u32, wprobeFKeepstat⟩

/-- One sample, of 25 bits. -/
def wideSample : List StatOp := [.set 0 .u32 1 16777219, .update]


/-- Behind 2^32 samples without an overflow of 64 bits the count is 0, and the sum is not. Behind a single sample that is
no float the radicand is negative. -/
theorem wprobe_variance_fails :
    (Along (statStep littleMachine [unitItem]) (Exact64 littleMachine [unitItem]) (fun _ => {}) (ones (2 ^ 32)) ∧
      ¬ ((runSteps (statStep littleMachine [unitItem]) (fun _ => {}) (ones (2 ^ 32)) 0).s *
          (runSteps (statStep littleMachine [unitItem]) (fun _ => {}) (ones (2 ^ 32)) 0).s ≤
        (runSteps (statStep littleMachine [unitItem]) (fun _ => {}) (ones (2 ^ 32)) 0).n *
          (runSteps (statStep littleMachine [unitItem]) (fun _ => {}) (ones (2 ^ 32)) 0).ss)) ∧
    Along (statStep littleMachine [wideItem]) (Exact64 littleMachine [wideItem]) (fun _ => {}) wideSample ∧
    radicandOf (runSteps (statStep littleMachine [wideItem]) (fun _ => {}) wideSample 0) = -2 ^ 25 := by
  obtain ⟨hval, halong⟩ := ones_run (n := 2 ^ 32) (by norm_num)
  rw [hval]
  exact ⟨⟨halong, by simp [onesValue]⟩, by decide +kernel⟩

/-- Three samples, a scale by two, one more sample, and another scale. -/
theorem wprobe_variance_consistent_scaled :
    let v := runSteps (statStep littleMachine [unitItem]) (fun _ => {})
      [.set 0 .u8 1 5, .update, .set 0 .u8 2 9, .update, .set 0 .u8 3 4, .update, .scale 0 (some 2),
        .set 0 .u8 4 7, .update, .scale 0 (some 2)] 0
    0 ≤ v.ss ∧ v.s * v.s ≤ v.n * v.ss ∧
      (0 < v.n → (0 : ℚ) ≤ (v.ss : ℚ) / v.n - ((v.s : ℚ) / v.n) ^ 2 ∧
        -((v.ss : ℚ) / v.n / 2 ^ 20) ≤ radicandOf v) :=
  wprobe_variance_consistent littleMachine [unitItem] _ (by decide +kernel) 0

/-! ## The duration -/

/-- The updates of one item, each with its time and value. -/
def wprobeSets (item : WprobeItem) (v : WprobeValue) (updates : List (ℕ × ℕ)) : WprobeValue :=
  updates.foldl (fun v u => wprobeSet item item.type u.1 u.2 v) v

/-- The time of the last update is in `first`, and `last` stays as it was. -/
theorem wprobeSets_times (item : WprobeItem) (v : WprobeValue) (u : ℕ × ℕ) (us : List (ℕ × ℕ)) :
    (wprobeSets item v (u :: us)).first = ((u :: us).getLast (List.cons_ne_nil u us)).1 ∧
      (wprobeSets item v (u :: us)).last = v.last := by
  induction us generalizing v u with
  | nil =>
    show (wprobeSet item item.type u.1 u.2 v).first = u.1 ∧ (wprobeSet item item.type u.1 u.2 v).last = v.last
    rw [wprobeSet_eq]
    exact ⟨rfl, rfl⟩
  | cons w us ih =>
    have hrest := ih (wprobeSet item item.type u.1 u.2 v) w
    have hlast : (wprobeSet item item.type u.1 u.2 v).last = v.last := by rw [wprobeSet_eq]
    rw [List.getLast_cons (List.cons_ne_nil w us), ← hlast]
    exact hrest

/-- With the time of the last update taken from zero, the duration is right only by a wrap of 64 bits. -/
theorem wprobe_duration_iff (mach : Machine) (item : WprobeItem) (u : ℕ × ℕ) (us : List (ℕ × ℕ))
    (hsorted : (u :: us).Pairwise fun a b => a.1 ≤ b.1) (hrange : ∀ a ∈ u :: us, 0 < a.1 ∧ a.1 < 2 ^ 64) (i flags : ℕ) :
    (wprobeSendItemValue mach item (wprobeSets item {} (u :: us)) i flags).duration =
        ((u :: us).getLast (List.cons_ne_nil u us)).1 - u.1 ↔
      2 * ((u :: us).getLast (List.cons_ne_nil u us)).1 = 2 ^ 64 + u.1 := by
  obtain ⟨hfirst, hlast⟩ := wprobeSets_times item {} u us
  obtain ⟨hpos, hlt⟩ := hrange _ (List.getLast_mem (List.cons_ne_nil u us))
  have hle : u.1 ≤ ((u :: us).getLast (List.cons_ne_nil u us)).1 := by
    rcases List.mem_cons.mp (List.getLast_mem (List.cons_ne_nil u us)) with heq | hmem
    · rw [heq]
    · exact (List.pairwise_cons.mp hsorted).1 _ hmem
  have hduration : (wprobeSendItemValue mach item (wprobeSets item {} (u :: us)) i flags).duration =
      2 ^ 64 - ((u :: us).getLast (List.cons_ne_nil u us)).1 := by
    show ((wprobeSets item {} (u :: us)).last + (2 ^ 64 - (wprobeSets item {} (u :: us)).first % 2 ^ 64)) % 2 ^ 64 = _
    rw [hfirst, hlast, Nat.mod_eq_of_lt hlt, Nat.zero_add, Nat.mod_eq_of_lt (by omega)]
  rw [hduration]
  omega

theorem wprobe_duration_iff_two :
    (wprobeSendItemValue littleMachine unitItem (wprobeSets unitItem {} [(1000, 7), (5000, 8)]) 0 0).duration =
      5000 - 1000 ↔ 2 * 5000 = 2 ^ 64 + 1000 :=
  wprobe_duration_iff littleMachine unitItem (1000, 7) [(5000, 8)] (by simp) (by simp) 0 0

/-- Two updates, at one and at five seconds. -/
theorem wprobe_duration_wrong :
    (wprobeSendItemValue littleMachine unitItem (wprobeSets unitItem {} [(1000, 7), (5000, 8)]) 0 0).duration =
        2 ^ 64 - 5000 ∧
      2 ^ 64 - 5000 ≠ 5000 - 1000 := by
  decide

end Neufbox.Wprobe
