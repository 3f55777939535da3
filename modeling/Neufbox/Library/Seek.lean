import Mathlib.Tactic

/-! A depth-first search for one node that passes a list of seen nodes along and stops where it finds the node.

* `seek next target fuel vs seen`: look at the nodes `vs`, and behind each of them that is new.
* `seek_false`: a search that finds nothing has seen all nodes behind what it saw.
* `seek_iff`: with enough fuel, a search finds the target if and only if it can be reached.
-/
namespace Neufbox.Seek
open Relation
set_option autoImplicit false
set_option maxHeartbeats 250000

variable {ν : Type} [DecidableEq ν]

/-- A loop over nodes; `descend` goes on behind one of them. -/
def seekIn (next : ν → List ν) (target : ν) (descend : List ν → List ν → Option (Bool × List ν)) :
    List ν → List ν → Option (Bool × List ν)
  | [], seen => some (false, seen)
  | v :: vs, seen =>
    if v ∈ seen then seekIn next target descend vs seen
    else if v = target then some (true, v :: seen)
    else
      match descend (next v) (v :: seen) with
      | none => none
      | some (true, seen') => some (true, seen')
      | some (false, seen') => seekIn next target descend vs seen'

def seek (next : ν → List ν) (target : ν) : ℕ → List ν → List ν → Option (Bool × List ν)
  | 0 => fun _ _ => none
  | fuel + 1 => seekIn next target (seek next target fuel)

/-- A node behind another one. -/
def Behind (next : ν → List ν) (v w : ν) : Prop := w ∈ next v

section Search
variable {next : ν → List ν} {target : ν}

/-- All that a search can do with the first of its nodes. -/
theorem seekIn_cons {descend : List ν → List ν → Option (Bool × List ν)} {v : ν} {vs seen : List ν} {r : Bool × List ν}
    (h : seekIn next target descend (v :: vs) seen = some r) :
    (v ∈ seen ∧ seekIn next target descend vs seen = some r) ∨
      (v ∉ seen ∧ v = target ∧ r = (true, v :: seen)) ∨
      (v ∉ seen ∧ v ≠ target ∧ ∃ b seen', descend (next v) (v :: seen) = some (b, seen') ∧
        (b = true ∧ r = (true, seen') ∨ b = false ∧ seekIn next target descend vs seen' = some r)) := by
  rw [seekIn] at h
  by_cases hseen : v ∈ seen
  · rw [if_pos hseen] at h
    exact Or.inl ⟨hseen, h⟩
  · rw [if_neg hseen] at h
    by_cases hv : v = target
    · rw [if_pos hv] at h
      exact Or.inr (Or.inl ⟨hseen, hv, (Option.some.inj h).symm⟩)
    · rw [if_neg hv] at h
      refine Or.inr (Or.inr ⟨hseen, hv, ?_⟩)
      cases hdescend : descend (next v) (v :: seen) with
      | none =>
        rw [hdescend] at h
        cases h
      | some res =>
        obtain ⟨b, seen'⟩ := res
        rw [hdescend] at h
        cases b with
        | true => exact ⟨true, seen', rfl, Or.inl ⟨rfl, (Option.some.inj h).symm⟩⟩
        | false => exact ⟨false, seen', rfl, Or.inr ⟨rfl, h⟩⟩

/-- What a search without success leaves: it saw its nodes, and what is behind every node that it saw. -/
structure Passed (next : ν → List ν) (target : ν) (vs seen seen' : List ν) : Prop where
  grows : seen ⊆ seen'
  nodes : vs ⊆ seen'
  closed : ∀ v ∈ seen', v ∈ seen ∨ (v ≠ target ∧ next v ⊆ seen')

theorem seek_false {fuel : ℕ} {vs seen seen' : List ν} (h : seek next target fuel vs seen = some (false, seen')) :
    Passed next target vs seen seen' := by
  induction fuel generalizing vs seen seen' with
  | zero => cases h
  | succ fuel ih =>
    rw [seek] at h
    induction vs generalizing seen with
    | nil =>
      cases h
      exact ⟨List.Subset.refl _, List.nil_subset _, fun v hv => Or.inl hv⟩
    | cons v vs ihvs =>
      rcases seekIn_cons h with ⟨hseen, hrest⟩ | ⟨-, -, hr⟩ | ⟨-, hv, b, seen₁, hdescend, ⟨-, hr⟩ | ⟨rfl, hrest⟩⟩
      · have hpassed := ihvs hrest
        exact ⟨hpassed.grows, List.cons_subset.mpr ⟨hpassed.grows hseen, hpassed.nodes⟩, hpassed.closed⟩
      · cases hr
      · cases hr
      · have hbehind := ih hdescend
        have hpassed := ihvs hrest
        have hgrows := List.Subset.trans hbehind.grows hpassed.grows
        refine ⟨fun w hw => hgrows (List.mem_cons_of_mem _ hw),
          List.cons_subset.mpr ⟨hgrows List.mem_cons_self, hpassed.nodes⟩, fun w hw => ?_⟩
        rcases hpassed.closed w hw with hw | hclosed
        · rcases hbehind.closed w hw with hw | ⟨hne, hsub⟩
          · rcases List.mem_cons.mp hw with rfl | hw
            · exact Or.inr ⟨hv, List.Subset.trans hbehind.nodes hpassed.grows⟩
            · exact Or.inl hw
          · exact Or.inr ⟨hne, List.Subset.trans hsub hpassed.grows⟩
        · exact Or.inr hclosed

theorem seek_true {fuel : ℕ} {vs seen seen' : List ν} (h : seek next target fuel vs seen = some (true, seen')) :
    ∃ v ∈ vs, ReflTransGen (Behind next) v target := by
  induction fuel generalizing vs seen seen' with
  | zero => cases h
  | succ fuel ih =>
    rw [seek] at h
    induction vs generalizing seen with
    | nil => cases h
    | cons v vs ihvs =>
      rcases seekIn_cons h with ⟨-, hrest⟩ | ⟨-, rfl, -⟩ | ⟨-, -, b, seen₁, hdescend, ⟨rfl, -⟩ | ⟨-, hrest⟩⟩
      · obtain ⟨w, hw, hreach⟩ := ihvs hrest
        exact ⟨w, List.mem_cons_of_mem _ hw, hreach⟩
      · exact ⟨v, List.mem_cons_self, ReflTransGen.refl⟩
      · obtain ⟨w, hw, hreach⟩ := ih hdescend
        exact ⟨v, List.mem_cons_self, ReflTransGen.head hw hreach⟩
      · obtain ⟨w, hw, hreach⟩ := ihvs hrest
        exact ⟨w, List.mem_cons_of_mem _ hw, hreach⟩

omit [DecidableEq ν] in
theorem Passed.not_reached {vs seen' : List ν} (h : Passed next target vs [] seen') {v : ν} (hv : v ∈ vs) :
    ¬ReflTransGen (Behind next) v target := by
  have hclosed : ∀ w ∈ seen', w ≠ target ∧ next w ⊆ seen' := fun w hw =>
    (h.closed w hw).resolve_left List.not_mem_nil
  have hseen : ∀ w, ReflTransGen (Behind next) v w → w ∈ seen' := by
    intro w hreach
    induction hreach with
    | refl => exact h.nodes hv
    | tail _ hstep ih => exact (hclosed _ ih).2 hstep
  exact fun hreach => (hclosed _ (hseen target hreach)).1 rfl

/-! ## Fuel -/

variable {V : Finset ν}

/-- The nodes that were not seen yet. -/
def unseen (V : Finset ν) (seen : List ν) : Finset ν := V.filter (· ∉ seen)

theorem unseen_mono {seen seen' : List ν} (h : seen ⊆ seen') : (unseen V seen').card ≤ (unseen V seen).card := by
  refine Finset.card_le_card fun v hv => ?_
  obtain ⟨hV, hseen⟩ := Finset.mem_filter.mp hv
  exact Finset.mem_filter.mpr ⟨hV, fun hmem => hseen (h hmem)⟩

theorem unseen_le (V : Finset ν) (seen : List ν) : (unseen V seen).card ≤ V.card :=
  Finset.card_le_card (Finset.filter_subset _ _)

theorem unseen_cons {seen : List ν} {v : ν} (hV : v ∈ V) (hv : v ∉ seen) :
    (unseen V (v :: seen)).card < (unseen V seen).card := by
  refine Finset.card_lt_card ⟨fun w hw => ?_, fun hsub => ?_⟩
  · obtain ⟨hwV, hseen⟩ := Finset.mem_filter.mp hw
    exact Finset.mem_filter.mpr ⟨hwV, fun hmem => hseen (List.mem_cons_of_mem _ hmem)⟩
  · have hmem := hsub (Finset.mem_filter.mpr ⟨hV, hv⟩)
    exact (Finset.mem_filter.mp hmem).2 List.mem_cons_self

theorem seek_returns (hV : ∀ v ∈ V, ∀ w ∈ next v, w ∈ V) {fuel : ℕ} {vs seen : List ν} (hvs : ∀ v ∈ vs, v ∈ V)
    (hfuel : (unseen V seen).card < fuel) : ∃ b seen', seek next target fuel vs seen = some (b, seen') ∧ seen ⊆ seen' := by
  induction fuel generalizing vs seen with
  | zero => cases hfuel
  | succ fuel ih =>
    rw [seek]
    induction vs generalizing seen with
    | nil => exact ⟨false, seen, rfl, List.Subset.refl _⟩
    | cons v vs ihvs =>
      have hv := hvs v List.mem_cons_self
      have hrest := fun w hw => hvs w (List.mem_cons_of_mem _ hw)
      rw [seekIn]
      by_cases hseen : v ∈ seen
      · rw [if_pos hseen]
        exact ihvs hrest hfuel
      · rw [if_neg hseen]
        by_cases htarget : v = target
        · rw [if_pos htarget]
          exact ⟨true, v :: seen, rfl, List.subset_cons_self _ _⟩
        · rw [if_neg htarget]
          have hlt := unseen_cons hv hseen
          obtain ⟨b, seen₁, hdescend, hsub⟩ := ih (hV v hv) (show (unseen V (v :: seen)).card < fuel by omega)
          have hgrows : seen ⊆ seen₁ := fun w hw => hsub (List.mem_cons_of_mem _ hw)
          rw [hdescend]
          cases b with
          | true => exact ⟨true, seen₁, rfl, hgrows⟩
          | false =>
            obtain ⟨b, seen₂, hloop, hsub₂⟩ := ihvs hrest (lt_of_le_of_lt (unseen_mono hgrows) hfuel)
            exact ⟨b, seen₂, hloop, List.Subset.trans hgrows hsub₂⟩

theorem seek_iff (hV : ∀ v ∈ V, ∀ w ∈ next v, w ∈ V) {fuel : ℕ} {vs : List ν} (hvs : ∀ v ∈ vs, v ∈ V)
    (hfuel : V.card < fuel) : ∃ b, (seek next target fuel vs []).map Prod.fst = some b ∧
      (b = true ↔ ∃ v ∈ vs, ReflTransGen (Behind next) v target) := by
  have hcard : (unseen V []).card < fuel := lt_of_le_of_lt (unseen_le V []) hfuel
  obtain ⟨b, seen', hseek, -⟩ := @seek_returns _ _ next target V hV fuel vs [] hvs hcard
  refine ⟨b, by rw [hseek, Option.map_some], ?_⟩
  cases b with
  | true => exact ⟨fun _ => seek_true hseek, fun _ => rfl⟩
  | false =>
    refine ⟨fun h => Bool.noConfusion h, ?_⟩
    rintro ⟨v, hv, hreach⟩
    exact absurd hreach ((seek_false hseek).not_reached hv)

end Search

end Neufbox.Seek
