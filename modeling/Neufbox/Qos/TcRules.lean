import Mathlib.Tactic
import Neufbox.Library.RunAlong

/-! # Real-time and link-share parameters of qos-scripts

`tcrules.awk` reads one line for each class and gives the real-time classes without a delay of their own a burst
each, from a common budget. Numbers are rationals here; one that is empty or missing on a line is 0, which is what
awk makes of it. -/
namespace Neufbox.Qos
open RunAlong
set_option autoImplicit false
set_option maxHeartbeats 250000
set_option maxRecDepth 120000

/-! ## Shares of a remainder

Shares are taken one after the other, each a fixed part of what is left. -/

/-- The sum of the shares with parts `p / whole`, out of `avail`. -/
def sharesOut (whole : ℚ) : ℚ → List ℚ → ℚ
  | _, [] => 0
  | avail, p :: ps => avail * p / whole + sharesOut whole (avail - avail * p / whole) ps

theorem sharesOut_eq (whole avail : ℚ) (ps : List ℚ) :
    sharesOut whole avail ps = avail * (1 - (ps.map fun p => 1 - p / whole).prod) := by
  induction ps generalizing avail with
  | nil => simp [sharesOut]
  | cons p ps ih =>
    rw [sharesOut, ih, List.map_cons, List.prod_cons]
    ring

theorem sum_eq_member_iff {ps : List ℚ} (hpos : ∀ p ∈ ps, 0 < p) (hne : ps ≠ []) :
    ps.sum ∈ ps ↔ ps.length = 1 := by
  constructor
  · intro hmem
    obtain ⟨before, after, hsplit⟩ := List.append_of_mem hmem
    have hsum : ps.sum = before.sum + (ps.sum + after.sum) := by
      conv_lhs => rw [hsplit, List.sum_append, List.sum_cons]
    have hpart : ∀ qs : List ℚ, (∀ q ∈ qs, q ∈ ps) → qs ≠ [] → 0 < qs.sum := by
      intro qs hqs hqne
      exact List.sum_pos _ (fun q hq => hpos q (hqs q hq)) hqne
    have hmemBefore : ∀ q ∈ before, q ∈ ps := fun q hq => hsplit ▸ List.mem_append_left _ hq
    have hmemAfter : ∀ q ∈ after, q ∈ ps := fun q hq =>
      hsplit ▸ List.mem_append_right _ (List.mem_cons_of_mem _ hq)
    have hbefore : before = [] := by
      by_contra hb
      have h1 := hpart before hmemBefore hb
      have h2 : 0 ≤ after.sum := List.sum_nonneg fun q hq => (hpos q (hmemAfter q hq)).le
      linarith
    have hafter : after = [] := by
      by_contra ha
      have h1 := hpart after hmemAfter ha
      rw [hbefore, List.sum_nil] at hsum
      linarith
    rw [hsplit, hbefore, hafter]
    rfl
  · intro hlen
    obtain ⟨p, rfl⟩ := List.length_eq_one_iff.mp hlen
    simp

/-- All of it is shared out only if one share is the whole. -/
theorem sharesOut_sum_iff {avail : ℚ} {ps : List ℚ} (havail : avail ≠ 0) (hpos : ∀ p ∈ ps, 0 < p) (hne : ps ≠ []) :
    sharesOut ps.sum avail ps = avail ↔ ps.length = 1 := by
  have hsum : ps.sum ≠ 0 := (List.sum_pos _ hpos hne).ne'
  rw [sharesOut_eq, mul_eq_left₀ havail, sub_eq_self, List.prod_eq_zero_iff, List.mem_map, ← sum_eq_member_iff hpos hne]
  constructor
  · rintro ⟨p, hp, h⟩
    rw [sub_eq_zero, eq_comm, div_eq_one_iff_eq hsum] at h
    exact h ▸ hp
  · intro h
    exact ⟨ps.sum, h, by rw [div_self hsum, sub_self]⟩

/-! ## The class lines -/

/-- The fields of a line; a `ClassLine` also holds what the arrays say of a class. -/
structure ClassLine where
  classnr : List Char
  prio : ℚ
  avgrate : ℚ
  pktsize : ℚ
  delay : ℚ
  maxrate : ℚ
  deriving DecidableEq, Repr

def lineSpeed (linespeed : ℚ) : ℚ := if 0 < linespeed then linespeed else 128

/-- What is stored of a line: the rates are percentages. -/
def store (linespeed : ℚ) (line : ClassLine) : ClassLine :=
  { line with avgrate := line.avgrate * linespeed / 100, maxrate := line.maxrate * linespeed / 100 }

def setDefaults (c : ClassLine) : ClassLine :=
  { c with
    pktsize := if 0 < c.pktsize then c.pktsize else 1500
    prio := if 0 < c.prio then c.prio else 1 }

/-- A real-time class without an explicit delay. -/
def Shares (c : ClassLine) : Prop := 0 < c.avgrate ∧ ¬0 < c.delay

instance Shares.decidable (c : ClassLine) : Decidable (Shares c) :=
  inferInstanceAs (Decidable (0 < c.avgrate ∧ ¬0 < c.delay))

structure Totals where
  allocated : ℚ
  sumPrio : ℚ
  sumRtprio : ℚ
  deriving DecidableEq, Repr

def count (t : Totals) (c : ClassLine) : Totals where
  allocated := t.allocated + c.avgrate
  sumPrio := t.sumPrio + c.prio
  sumRtprio := if Shares c then t.sumRtprio + c.prio else t.sumRtprio

def totals (classes : List ClassLine) : Totals := runSteps count ⟨0, 0, 0⟩ classes

/-- `d[i]` after the second loop. -/
def burstTime (linespeed : ℚ) (c : ClassLine) : ℚ :=
  if 0 < c.avgrate then
    if 0 < c.delay then c.delay else 2 * c.pktsize * 1000 / (linespeed * 1024)
  else 0

def raiseDmax (linespeed dmax : ℚ) (c : ClassLine) : ℚ :=
  if Shares c ∧ dmax < burstTime linespeed c then burstTime linespeed c else dmax

def dmax (linespeed : ℚ) (classes : List ClassLine) : ℚ := runSteps (raiseDmax linespeed) 0 classes

/-! ## The allocation -/

structure Params where
  d : ℚ
  rtm1 : ℚ
  rtm2 : ℚ
  lsm1 : ℚ
  lsm2 : ℚ
  deriving DecidableEq, Repr

/-- `ds`, the share of a class in what is left. -/
def share (t : Totals) (dsAvail : ℚ) (c : ClassLine) : ℚ := dsAvail * c.prio / t.sumRtprio

/-- The body of the third loop. -/
def classParams (linespeed : ℚ) (t : Totals) (dsAvail : ℚ) (c : ClassLine) : Params :=
  let d := burstTime linespeed c
  let rtm2 := if 0 < c.avgrate then c.avgrate else 0
  let lsm2 := linespeed * c.prio / t.sumPrio
  if 0 < c.avgrate ∧ 0 < d then
    if ¬0 < c.delay then
      let rtm1 := rtm2 + share t dsAvail c / d
      { d := d, rtm1 := rtm1, rtm2 := rtm2, lsm1 := rtm1, lsm2 := lsm2 }
    else { d := d, rtm1 := 0, rtm2 := rtm2, lsm1 := 0, lsm2 := lsm2 }
  else { d := 0, rtm1 := 0, rtm2 := rtm2, lsm1 := 0, lsm2 := lsm2 }

def dsAfter (linespeed : ℚ) (t : Totals) (dsAvail : ℚ) (c : ClassLine) : ℚ :=
  if Shares c ∧ 0 < burstTime linespeed c then dsAvail - share t dsAvail c else dsAvail

def allocate (linespeed : ℚ) (t : Totals) : ℚ → List ClassLine → List Params
  | _, [] => []
  | dsAvail, c :: cs => classParams linespeed t dsAvail c :: allocate linespeed t (dsAfter linespeed t dsAvail c) cs

/-- The lines that name a class. -/
def classLines (input : List ClassLine) : List ClassLine := input.filter fun line => line.classnr ≠ []

def prepare (linespeed : ℚ) (line : ClassLine) : ClassLine := setDefaults (store linespeed line)

def prepared (linespeed : ℚ) (input : List ClassLine) : List ClassLine :=
  (classLines input).map (prepare linespeed)

/-- `dmax * (linespeed - allocated)`. -/
def budget (linespeed : ℚ) (classes : List ClassLine) : ℚ :=
  dmax linespeed classes * (linespeed - (totals classes).allocated)

/-- Every line that names a class, with its parameters. -/
def tcrules (linespeed : ℚ) (input : List ClassLine) : List (ClassLine × Params) :=
  (classLines input).zip
    (allocate linespeed (totals (prepared linespeed input)) (budget linespeed (prepared linespeed input))
      (prepared linespeed input))

/-- The sum of `d * (rtm1 - rtm2)` over the real-time classes without a delay of their own. -/
def bursts (linespeed : ℚ) (results : List (ClassLine × Params)) : ℚ :=
  ((results.filter fun r => Shares (prepare linespeed r.1)).map fun r => r.2.d * (r.2.rtm1 - r.2.rtm2)).sum

def OrderFree (linespeed : ℚ) (input : List ClassLine) : Prop :=
  ∀ input' : List ClassLine, input'.Perm input → (tcrules linespeed input').Perm (tcrules linespeed input)

def BudgetUsed (linespeed : ℚ) (input : List ClassLine) : Prop :=
  bursts linespeed (tcrules linespeed input) = budget linespeed (prepared linespeed input)

/-! ## What depends on the order of the lines -/

instance count.rightCommutative : RightCommutative count where
  right_comm t c c' := by
    simp only [count, Totals.mk.injEq]
    refine ⟨add_right_comm _ _ _, add_right_comm _ _ _, ?_⟩
    split <;> split <;> first | rfl | exact add_right_comm _ _ _

theorem raiseDmax_eq_max (linespeed dmax : ℚ) (c : ClassLine) :
    raiseDmax linespeed dmax c = if Shares c then max dmax (burstTime linespeed c) else dmax := by
  rw [raiseDmax]
  by_cases hc : Shares c
  · simp only [hc, true_and, if_true]
    split
    · rename_i hlt
      rw [max_eq_right hlt.le]
    · rename_i hge
      rw [max_eq_left (not_lt.mp hge)]
  · simp only [hc, false_and, if_false]

instance raiseDmax.rightCommutative (linespeed : ℚ) : RightCommutative (raiseDmax linespeed) where
  right_comm m c c' := by
    simp only [raiseDmax_eq_max]
    split <;> split <;> first | rfl | exact max_right_comm _ _ _

theorem totals_perm {classes classes' : List ClassLine} (h : classes.Perm classes') :
    totals classes = totals classes' := h.foldl_eq _

theorem dmax_perm (linespeed : ℚ) {classes classes' : List ClassLine} (h : classes.Perm classes') :
    dmax linespeed classes = dmax linespeed classes' := h.foldl_eq _

theorem prepared_perm (linespeed : ℚ) {input input' : List ClassLine} (h : input.Perm input') :
    (prepared linespeed input).Perm (prepared linespeed input') := (h.filter _).map _

/-- A class that takes no share has the same parameters wherever it comes. -/
theorem classParams_of_not_shares (linespeed : ℚ) (t : Totals) {c : ClassLine} (hc : ¬Shares c) (x y : ℚ) :
    classParams linespeed t x c = classParams linespeed t y c := by
  simp only [classParams]
  split
  · rename_i hrt
    rw [if_neg (not_not_intro (not_not.mp fun h => hc ⟨hrt.1, h⟩)),
      if_neg (not_not_intro (not_not.mp fun h => hc ⟨hrt.1, h⟩))]
  · rfl

theorem dsAfter_of_not_shares (linespeed : ℚ) (t : Totals) {c : ClassLine} (hc : ¬Shares c) (x : ℚ) :
    dsAfter linespeed t x c = x := if_neg fun h => hc h.1

theorem allocate_of_none (linespeed : ℚ) (t : Totals) {cs : List ClassLine} (h : cs.filter (Shares ·) = []) (x y : ℚ) :
    allocate linespeed t x cs = cs.map (classParams linespeed t y) := by
  induction cs generalizing x with
  | nil => rfl
  | cons c cs ih =>
    rw [List.filter_cons] at h
    split at h
    · cases h
    · rename_i hc
      have hc : ¬Shares c := fun hs => hc (decide_eq_true hs)
      rw [allocate, ih h, classParams_of_not_shares linespeed t hc x y, List.map_cons]

/-- With one share to take, all of it is there when its turn comes. -/
theorem allocate_of_one (linespeed : ℚ) (t : Totals) {cs : List ClassLine} (h : (cs.filter (Shares ·)).length = 1)
    (x : ℚ) : allocate linespeed t x cs = cs.map (classParams linespeed t x) := by
  induction cs with
  | nil => cases h
  | cons c cs ih =>
    rw [List.filter_cons] at h
    split at h
    · rw [List.length_cons, Nat.add_eq_right, List.length_eq_zero_iff] at h
      rw [allocate, allocate_of_none linespeed t h _ x, List.map_cons]
    · rename_i hc
      rw [allocate, dsAfter_of_not_shares linespeed t (fun hs => hc (decide_eq_true hs)), ih h, List.map_cons]

theorem orderFree_of_one {linespeed : ℚ} {input : List ClassLine}
    (h : ((prepared linespeed input).filter (Shares ·)).length = 1) : OrderFree linespeed input := by
  intro input' hperm
  have hprep := prepared_perm linespeed hperm
  have h' : ((prepared linespeed input').filter (Shares ·)).length = 1 := (hprep.filter _).length_eq.trans h
  have hbudget : budget linespeed (prepared linespeed input') = budget linespeed (prepared linespeed input) := by
    rw [budget, budget, dmax_perm linespeed hprep, totals_perm hprep]
  rw [tcrules, tcrules, allocate_of_one linespeed _ h', allocate_of_one linespeed _ h, hbudget, totals_perm hprep,
    prepared, prepared, List.map_map, List.map_map, ← List.map_prod_left_eq_zip, ← List.map_prod_left_eq_zip]
  exact (hperm.filter _).map _

/-! ## The budget -/

theorem burstTime_pos {linespeed : ℚ} (hspeed : 0 < linespeed) {c : ClassLine} (hsize : 0 < c.pktsize)
    (hc : Shares c) : 0 < burstTime linespeed c := by
  rw [burstTime, if_pos hc.1, if_neg hc.2]
  positivity

theorem prepare_pktsize_pos (linespeed : ℚ) (line : ClassLine) : 0 < (prepare linespeed line).pktsize := by
  show 0 < if 0 < line.pktsize then line.pktsize else 1500
  split
  · assumption
  · norm_num

theorem prepare_prio_pos (linespeed : ℚ) (line : ClassLine) : 0 < (prepare linespeed line).prio := by
  show 0 < if 0 < line.prio then line.prio else 1
  split
  · assumption
  · norm_num

/-- The priorities of the classes that share. -/
def sharePrios (classes : List ClassLine) : List ℚ := (classes.filter (Shares ·)).map ClassLine.prio

theorem sharePrios_cons (c : ClassLine) (cs : List ClassLine) :
    sharePrios (c :: cs) = if Shares c then c.prio :: sharePrios cs else sharePrios cs := by
  rw [sharePrios, List.filter_cons]
  by_cases hc : Shares c
  · rw [if_pos (decide_eq_true hc), if_pos hc, List.map_cons]
    rfl
  · rw [if_neg (fun h => hc (of_decide_eq_true h)), if_neg hc]
    rfl

theorem bursts_allocate {linespeed : ℚ} (hspeed : 0 < linespeed) (t : Totals) (lines : List ClassLine) (x : ℚ) :
    bursts linespeed (lines.zip (allocate linespeed t x (lines.map (prepare linespeed)))) =
      sharesOut t.sumRtprio x (sharePrios (lines.map (prepare linespeed))) := by
  induction lines generalizing x with
  | nil => rfl
  | cons line lines ih =>
    rw [List.map_cons, allocate, List.zip_cons_cons, bursts, sharePrios_cons, List.filter_cons]
    by_cases hc : Shares (prepare linespeed line)
    · have hd := burstTime_pos hspeed (prepare_pktsize_pos linespeed line) hc
      rw [if_pos (decide_eq_true hc), if_pos hc, List.map_cons, List.sum_cons, sharesOut, dsAfter, if_pos ⟨hc, hd⟩]
      have hburst : (classParams linespeed t x (prepare linespeed line)).d *
          ((classParams linespeed t x (prepare linespeed line)).rtm1 -
            (classParams linespeed t x (prepare linespeed line)).rtm2) = x * (prepare linespeed line).prio / t.sumRtprio := by
        simp only [classParams, if_pos (And.intro hc.1 hd), if_pos hc.2, add_sub_cancel_left]
        exact mul_div_cancel₀ _ hd.ne'
      rw [hburst]
      exact congrArg _ (ih _)
    · rw [if_neg (fun h => hc (of_decide_eq_true h)), if_neg hc, dsAfter_of_not_shares linespeed t hc]
      exact ih x

theorem sumRtprio_eq (classes : List ClassLine) : (totals classes).sumRtprio = (sharePrios classes).sum := by
  have hloop : ∀ t : Totals, (runSteps count t classes).sumRtprio = t.sumRtprio + (sharePrios classes).sum := by
    induction classes with
    | nil =>
      intro t
      exact (add_zero _).symm
    | cons c cs ih =>
      intro t
      rw [runSteps_cons, ih, sharePrios_cons]
      by_cases hc : Shares c
      · rw [if_pos hc, List.sum_cons, ← add_assoc]
        simp only [count, if_pos hc]
      · rw [if_neg hc]
        simp only [count, if_neg hc]
  rw [totals, hloop, zero_add]

theorem dmax_pos {linespeed : ℚ} (hspeed : 0 < linespeed) {classes : List ClassLine}
    (hsize : ∀ c ∈ classes, 0 < c.pktsize) (h : classes.filter (Shares ·) ≠ []) : 0 < dmax linespeed classes := by
  have hgrow : ∀ (cs : List ClassLine) (m : ℚ), m ≤ runSteps (raiseDmax linespeed) m cs := by
    intro cs
    induction cs with
    | nil => exact fun m => le_rfl
    | cons c cs ih =>
      intro m
      refine le_trans ?_ (ih _)
      rw [raiseDmax_eq_max]
      split
      · exact le_max_left _ _
      · exact le_rfl
  obtain ⟨c, hc⟩ := List.exists_mem_of_ne_nil _ h
  rw [List.mem_filter, decide_eq_true_iff] at hc
  obtain ⟨before, after, rfl⟩ := List.append_of_mem hc.1
  rw [dmax, runSteps_append, runSteps_cons]
  refine lt_of_lt_of_le ?_ (hgrow _ _)
  rw [raiseDmax_eq_max, if_pos hc.2]
  exact lt_max_of_lt_right (burstTime_pos hspeed (hsize c hc.1) hc.2)

theorem budgetUsed_iff {linespeed : ℚ} (hspeed : 0 < linespeed) {input : List ClassLine}
    (hrate : (totals (prepared linespeed input)).allocated < linespeed)
    (hrt : (prepared linespeed input).filter (Shares ·) ≠ []) :
    BudgetUsed linespeed input ↔ ((prepared linespeed input).filter (Shares ·)).length = 1 := by
  have hsize : ∀ c ∈ prepared linespeed input, 0 < c.pktsize := by
    intro c hc
    obtain ⟨line, -, rfl⟩ := List.mem_map.mp hc
    exact prepare_pktsize_pos linespeed line
  have hprio : ∀ p ∈ sharePrios (prepared linespeed input), 0 < p := by
    intro p hp
    obtain ⟨c, hc, rfl⟩ := List.mem_map.mp hp
    obtain ⟨line, -, rfl⟩ := List.mem_map.mp (List.mem_of_mem_filter hc)
    exact prepare_prio_pos linespeed line
  have hbudget : budget linespeed (prepared linespeed input) ≠ 0 :=
    (mul_pos (dmax_pos hspeed hsize hrt) (sub_pos.mpr hrate)).ne'
  have hne : sharePrios (prepared linespeed input) ≠ [] := fun h => hrt (List.map_eq_nil_iff.mp h)
  have hsum : bursts linespeed (tcrules linespeed input) = sharesOut (sharePrios (prepared linespeed input)).sum
      (budget linespeed (prepared linespeed input)) (sharePrios (prepared linespeed input)) := by
    rw [← sumRtprio_eq]
    exact bursts_allocate hspeed _ _ _
  rw [BudgetUsed, hsum, sharesOut_sum_iff hbudget hprio hne, sharePrios, List.length_map]

theorem lineSpeed_pos (linespeed : ℚ) : 0 < lineSpeed linespeed := by
  rw [lineSpeed]
  split
  · assumption
  · norm_num

/-- The bursts are fair and use the budget up exactly where one class has it all: the shares are taken from what
is left, but by parts of the whole. -/
theorem bursts_fair_iff (linespeed : ℚ) (input : List ClassLine)
    (hrate : (totals (prepared (lineSpeed linespeed) input)).allocated < lineSpeed linespeed)
    (hrt : (prepared (lineSpeed linespeed) input).filter (Shares ·) ≠ []) :
    OrderFree (lineSpeed linespeed) input ∧ BudgetUsed (lineSpeed linespeed) input ↔
      ((prepared (lineSpeed linespeed) input).filter (Shares ·)).length = 1 := by
  rw [budgetUsed_iff (lineSpeed_pos linespeed) hrate hrt]
  exact ⟨And.right, fun h => ⟨orderFree_of_one h, h⟩⟩

/-- A line of priority `prio` with a tenth of the link and no delay. -/
def tenth (classnr : List Char) (prio : ℚ) : ClassLine where
  classnr := classnr
  prio := prio
  avgrate := 10
  pktsize := 1500
  delay := 0
  maxrate := 100

/-- A class with a delay of its own, one that takes a share, and one that is not real-time. -/
def mixedLines : List ClassLine :=
  [{ tenth ['1'] 2 with delay := 20 }, tenth ['2'] 1, { tenth ['3'] 5 with avgrate := 0 }]

/-- Only one of the classes takes a share. -/
theorem bursts_fair_of_one_class : OrderFree (lineSpeed 1024) mixedLines ∧ BudgetUsed (lineSpeed 1024) mixedLines :=
  (bursts_fair_iff 1024 mixedLines (by decide +kernel) (by decide +kernel)).mpr (by decide +kernel)

theorem bursts_of_two_classes :
    (totals (prepared (lineSpeed 1024) [tenth ['1'] 1, tenth ['2'] 3])).allocated < lineSpeed 1024 ∧
      (prepared (lineSpeed 1024) [tenth ['1'] 1, tenth ['2'] 3]).filter (Shares ·) ≠ [] ∧
      ¬OrderFree (lineSpeed 1024) [tenth ['1'] 1, tenth ['2'] 3] ∧
      ¬BudgetUsed (lineSpeed 1024) [tenth ['1'] 1, tenth ['2'] 3] := by
  refine ⟨by decide +kernel, by decide +kernel, fun h => ?_, ?_⟩
  · have hperm := h [tenth ['2'] 3, tenth ['1'] 1] (List.Perm.swap _ _ _)
    revert hperm
    decide +kernel
  · rw [budgetUsed_iff (lineSpeed_pos 1024) (by decide +kernel) (by decide +kernel)]
    decide +kernel

end Neufbox.Qos
