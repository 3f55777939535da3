import Mathlib.Tactic
import Mathlib.Data.List.SplitBy

/-! The maximal runs of a list along a relation, `List.splitBy`. Appending joins the two runs that
meet when the relation holds there, and a list cannot be cut into fewer chains than it has runs. -/
namespace Neufbox.Runs
set_option autoImplicit false
set_option maxHeartbeats 250000

variable {α : Type} {r : α → α → Bool}

theorem splitBy_append_joined {l m c h : List α} {cs t : List (List α)} (hl : l.splitBy r = cs ++ [c])
    (hm : m.splitBy r = h :: t) (hjoin : ∀ x ∈ l.getLast?, ∀ y ∈ m.head?, r x y = true) :
    (l ++ m).splitBy r = cs ++ (c ++ h) :: t := by
  obtain ⟨hlf, hln, hlc, hlb⟩ := List.splitBy_eq_iff.mp hl
  obtain ⟨hmf, hmn, hmc, hmb⟩ := List.splitBy_eq_iff.mp hm
  have hc : c ≠ [] := fun hnil => hln (by rw [hnil]; simp)
  have hh : h ≠ [] := fun hnil => hmn (by rw [hnil]; simp)
  have hlast : l.getLast? = c.getLast? := by
    rw [hlf, List.flatten_append, List.flatten_singleton, List.getLast?_append_of_ne_nil _ hc]
  have hhead : m.head? = h.head? := by
    rw [hmf, List.flatten_cons, List.head?_append_of_ne_nil _ hh]
  rw [List.splitBy_eq_iff]
  refine ⟨?_, ?_, ?_, ?_⟩
  · rw [hlf, hmf]
    simp
  · intro hmem
    rcases List.mem_append.mp hmem with hmem | hmem
    · exact hln (List.mem_append_left _ hmem)
    · rcases List.mem_cons.mp hmem with hnil | hmem
      · exact hc (List.append_eq_nil_iff.mp hnil.symm).1
      · exact hmn (List.mem_cons_of_mem _ hmem)
  · intro x hx
    rcases List.mem_append.mp hx with hx | hx
    · exact hlc x (List.mem_append_left _ hx)
    · rcases List.mem_cons.mp hx with rfl | hx
      · rw [List.isChain_append]
        refine ⟨hlc c (by simp), hmc h (by simp), ?_⟩
        intro x hx y hy
        exact hjoin x (by rwa [hlast]) y (by rwa [hhead])
      · exact hmc x (List.mem_cons_of_mem _ hx)
  · rw [List.isChain_append] at hlb ⊢
    refine ⟨hlb.1, ?_, ?_⟩
    · rw [List.isChain_cons] at hmb ⊢
      refine ⟨?_, hmb.2⟩
      intro y hy
      obtain ⟨_, hy0, hbreak⟩ := hmb.1 y hy
      refine ⟨by simp [hh], hy0, ?_⟩
      rwa [List.getLast_append_of_ne_nil _ hh]
    · intro x hx y hy
      obtain ⟨hx0, hc0, hbreak⟩ := hlb.2.2 x hx c (by simp)
      obtain rfl : c ++ h = y := by simpa using hy
      refine ⟨hx0, by simp [hc], ?_⟩
      rwa [List.head_append_of_ne_nil]

/-- One more element: it continues the last run or starts a new one. -/
theorem splitBy_concat {l c : List α} {cs : List (List α)} (x : α) (hl : l.splitBy r = cs ++ [c])
    {z : α} (hz : l.getLast? = some z) :
    (l ++ [x]).splitBy r = if r z x then cs ++ [c ++ [x]] else cs ++ [c] ++ [[x]] := by
  have hx : [x].splitBy r = [[x]] := rfl
  split
  · next hr =>
    apply splitBy_append_joined hl hx
    intro z' hz' y hy
    rw [hz, Option.mem_some_iff] at hz'
    obtain rfl : x = y := by simpa using hy
    rwa [← hz']
  · next hr =>
    rw [List.splitBy_append, hl, hx]
    intro z' hz' y hy
    rw [hz, Option.mem_some_iff] at hz'
    obtain rfl : x = y := by simpa using hy
    rw [← hz']
    simpa using hr

/-- Chains that make up a list are at least as many as its runs, and are its runs when they are no more. -/
theorem splitBy_least {ps : List (List α)} (hne : [] ∉ ps)
    (hchain : ∀ p ∈ ps, p.IsChain fun x y => r x y) :
    (ps.flatten.splitBy r).length ≤ ps.length ∧
      ((ps.flatten.splitBy r).length = ps.length → ps.flatten.splitBy r = ps) := by
  induction ps with
  | nil => simp
  | cons p ps ih =>
    have hp0 : p ≠ [] := fun hnil => hne (by rw [hnil]; simp)
    obtain ⟨hle, heq⟩ := ih (fun hmem => hne (List.mem_cons_of_mem _ hmem))
      (fun q hq => hchain q (List.mem_cons_of_mem _ hq))
    have hp : p.splitBy r = [] ++ [p] := List.splitBy_of_isChain hp0 (hchain p List.mem_cons_self)
    rw [List.flatten_cons]
    by_cases hbreak : ∀ x ∈ p.getLast?, ∀ y ∈ ps.flatten.head?, r x y = false
    · have hsplit : (p ++ ps.flatten).splitBy r = p :: ps.flatten.splitBy r := by
        rw [List.splitBy_append hbreak, hp]
        rfl
      rw [hsplit, List.length_cons, List.length_cons]
      refine ⟨by omega, ?_⟩
      intro h
      rw [heq (by omega)]
    · -- the relation holds where `p` meets the rest, so `p` is no run of its own
      push Not at hbreak
      obtain ⟨x, hx, y, hy, hxy⟩ := hbreak
      have hrest : ps.flatten ≠ [] := by
        intro hnil
        rw [hnil] at hy
        simp at hy
      obtain ⟨h, t, hht⟩ := List.exists_cons_of_ne_nil (List.splitBy_ne_nil.mpr hrest : _ ≠ ([] : List (List α)))
      have hjoined : (p ++ ps.flatten).splitBy r = [] ++ (p ++ h) :: t := by
        apply splitBy_append_joined hp hht
        intro x' hx' y' hy'
        rw [Option.mem_unique hx' hx, Option.mem_unique hy' hy]
        simpa using hxy
      rw [hjoined]
      rw [hht] at hle
      simp only [List.nil_append, List.length_cons] at hle ⊢
      refine ⟨by omega, ?_⟩
      intro h
      omega

end Neufbox.Runs
