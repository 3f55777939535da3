import Mathlib.Tactic

/-! Sorting with a comparison function of one's own, where the result is promised for consistent comparisons only.

* `Consistent cmp l`: the comparison is that of a preorder on the members of a list.
* `sort`: a stable merge sort; it keeps the members, and puts them in order when the comparison is consistent.
* `consistent_iff`: when an order by need, and by keys where nothing is needed, is consistent.
-/
namespace Neufbox.Comparator
set_option autoImplicit false
set_option maxHeartbeats 250000

variable {α : Type}

structure Consistent (cmp : α → α → ℤ) (l : List α) : Prop where
  anti : ∀ a ∈ l, ∀ b ∈ l, 0 < cmp a b ↔ cmp b a < 0
  trans : ∀ a ∈ l, ∀ b ∈ l, ∀ c ∈ l, cmp a b ≤ 0 → cmp b c ≤ 0 → cmp a c ≤ 0

/-- The comparison as a test. -/
def atMost (cmp : α → α → ℤ) (a b : α) : Bool := cmp a b ≤ 0

/-- A stable merge sort. -/
def sort (cmp : α → α → ℤ) (l : List α) : List α := l.mergeSort (atMost cmp)

theorem mem_sort (cmp : α → α → ℤ) (l : List α) (a : α) : a ∈ sort cmp l ↔ a ∈ l :=
  (List.mergeSort_perm l (atMost cmp)).mem_iff

theorem sort_sorted {cmp : α → α → ℤ} {l : List α} (h : Consistent cmp l) :
    (sort cmp l).Pairwise fun a b => cmp a b ≤ 0 := by
  -- a merge sort of the members, each with the fact that it is one
  have hsorted : (l.attach.mergeSort fun a b => atMost cmp a.1 b.1).Pairwise fun a b => atMost cmp a.1 b.1 = true := by
    refine List.pairwise_mergeSort ?_ ?_ _
    · rintro ⟨a, ha⟩ ⟨b, hb⟩ ⟨c, hc⟩ hab hbc
      simp only [atMost, decide_eq_true_eq] at hab hbc ⊢
      exact h.trans a ha b hb c hc hab hbc
    · rintro ⟨a, ha⟩ ⟨b, hb⟩
      have hanti := h.anti a ha b hb
      simp only [atMost, Bool.or_eq_true, decide_eq_true_eq]
      omega
  have hmap : (l.attach.mergeSort fun a b => atMost cmp a.1 b.1).map Subtype.val = sort cmp l := by
    rw [sort, List.map_mergeSort (s := atMost cmp) fun _ _ _ _ => rfl, List.attach_map_subtype_val]
  rw [← hmap, List.pairwise_map]
  exact hsorted.imp fun hle => of_decide_eq_true hle

/-! ## What holds between the places of a sorted list -/

section Places
variable {cmp : α → α → ℤ} {l : List α} {P : α → α → Prop}

/-- Two members stand in one order or the other. -/
theorem pairwise_or {l : List α} (h : l.Pairwise P) {a b : α} (ha : a ∈ l) (hb : b ∈ l) (hne : a ≠ b) : P a b ∨ P b a := by
  have hboth : l.Pairwise fun a b => P a b ∨ P b a := h.imp Or.inl
  have hsymm : Std.Symm fun a b => P a b ∨ P b a := ⟨fun _ _ => Or.symm⟩
  exact hboth.forall ha hb hne

theorem of_neg (h : Consistent cmp l) (hP : (sort cmp l).Pairwise P) {a b : α} (ha : a ∈ l) (hb : b ∈ l)
    (hneg : cmp a b < 0) : P a b := by
  have hpos : 0 < cmp b a := (h.anti b hb a ha).mpr hneg
  have hne : a ≠ b := by
    rintro rfl
    omega
  have hmem := mem_sort cmp l
  rcases pairwise_or ((sort_sorted h).and hP) ((hmem a).mpr ha) ((hmem b).mpr hb) hne with ⟨-, hab⟩ | ⟨hle, -⟩
  · exact hab
  · exact absurd hle (not_le.mpr hpos)

theorem pairwise_of_pos (h : Consistent cmp l) (hP : ∀ a ∈ l, ∀ b ∈ l, cmp a b ≤ 0 → P a b) :
    (sort cmp l).Pairwise P := by
  refine (sort_sorted h).imp_of_mem fun {a b} ha hb hle => ?_
  exact hP a ((mem_sort cmp l a).mp ha) b ((mem_sort cmp l b).mp hb) hle

end Places

/-! ## Order by need, and by keys -/

section Mixed
variable {κ : Type} [LinearOrder κ] (D : α → α → Prop) (key : α → κ)

/-- `a` comes after `b`: it needs it, or has the greater key and is not needed for it. -/
def After (a b : α) : Prop := D a b ∨ (¬D b a ∧ key b < key a)

/-- No member stands between another and what that one needs, without a bond to one of them. -/
def NoneBetween (M : Set α) : Prop :=
  ∀ a ∈ M, ∀ b ∈ M, ∀ c ∈ M, D a c → key a < key b → key b < key c → D a b ∨ D b a ∨ D b c ∨ D c b

variable {D key} {l : List α} (htrans : ∀ a ∈ l, ∀ b ∈ l, ∀ c ∈ l, D a b → D b c → D a c)
  (hinj : ∀ a ∈ l, ∀ b ∈ l, key a = key b → a = b)
include htrans hinj

theorem after_or (h : NoneBetween D key {a | a ∈ l}) {a b c : α} (ha : a ∈ l) (hb : b ∈ l) (hc : c ∈ l) (hafter : After D key a c) :
    After D key a b ∨ After D key b c := by
  by_contra hnot
  simp only [After, not_or, not_and, not_lt] at hnot
  obtain ⟨⟨hab, hkab⟩, hbc, hkbc⟩ := hnot
  by_cases hac : D a c
  · have hba : ¬D b a := fun hba => hbc (htrans b hb a ha c hc hba hac)
    have hcb : ¬D c b := fun hcb => hab (htrans a ha c hc b hb hac hcb)
    have hne : key a ≠ key b := fun heq => hbc (hinj a ha b hb heq ▸ hac)
    have hne' : key b ≠ key c := fun heq => hab (hinj b hb c hc heq ▸ hac)
    have hbetween := h a ha b hb c hc hac (lt_of_le_of_ne (hkab hba) hne) (lt_of_le_of_ne (hkbc hcb) hne')
    simp only [hab, hba, hbc, hcb, or_self] at hbetween
  · obtain ⟨hca, hlt⟩ := hafter.resolve_left hac
    by_cases hba : D b a
    · -- `c` is between `b` and what that one needs
      have hcb : ¬D c b := fun hcb => hca (htrans c hc b hb a ha hcb hba)
      have hne : key b ≠ key c := fun heq => hca (hinj b hb c hc heq ▸ hba)
      have hbetween := h b hb c hc a ha hba (lt_of_le_of_ne (hkbc hcb) hne) hlt
      simp only [hbc, hcb, hca, hac, or_self] at hbetween
    · by_cases hcb : D c b
      · have hne : key a ≠ key b := fun heq => hca (hinj a ha b hb heq ▸ hcb)
        have hbetween := h c hc a ha b hb hcb hlt (lt_of_le_of_ne (hkab hba) hne)
        simp only [hca, hac, hab, hba, or_self] at hbetween
      · exact absurd ((hkab hba).trans (hkbc hcb)) (not_le.mpr hlt)

/-- A comparison by need and keys is consistent if and only if no member stands between two others that are bound. -/
theorem consistent_iff {cmp : α → α → ℤ} (hpos : ∀ a ∈ l, ∀ b ∈ l, 0 < cmp a b ↔ After D key a b)
    (hneg : ∀ a ∈ l, ∀ b ∈ l, cmp a b < 0 ↔ After D key b a) : Consistent cmp l ↔ NoneBetween D key {a | a ∈ l} := by
  constructor
  · intro h a ha b hb c hc hac hkab hkbc
    by_contra hnot
    simp only [not_or] at hnot
    obtain ⟨hab, hba, hbc, hcb⟩ := hnot
    have hle : cmp a b ≤ 0 := not_lt.mp fun hlt => (((hpos a ha b hb).mp hlt).resolve_left hab).2.not_gt hkab
    have hle' : cmp b c ≤ 0 := not_lt.mp fun hlt => (((hpos b hb c hc).mp hlt).resolve_left hbc).2.not_gt hkbc
    exact absurd (h.trans a ha b hb c hc hle hle') (not_le.mpr ((hpos a ha c hc).mpr (Or.inl hac)))
  · intro h
    refine ⟨fun a ha b hb => (hpos a ha b hb).trans (hneg b hb a ha).symm, fun a ha b hb c hc hab hbc => ?_⟩
    by_contra hlt
    rcases after_or htrans hinj h ha hb hc ((hpos a ha c hc).mp (not_le.mp hlt)) with hafter | hafter
    · exact absurd hab (not_le.mpr ((hpos a ha b hb).mpr hafter))
    · exact absurd hbc (not_le.mpr ((hpos b hb c hc).mpr hafter))

end Mixed

end Neufbox.Comparator
