import Neufbox.Library.RunAlong

/-! A depth-first traversal that does something at a node before and after it goes on behind it.

* `traverse visit fuel s i`: visit `i`, then what the visit asks for, then what it has left to do.
* `traverse_returns`: it returns when each visit that asks for more lowers a measure.
* `Meets`: a condition that every visit meets.
* `traverse_rule`: what a visit does and leaves done, for the whole traversal.
-/
namespace Neufbox.Traverse
open RunAlong
set_option autoImplicit false
set_option maxHeartbeats 250000

variable {σ ι : Type}

inductive Step (σ ι : Type)
  | done (s : σ)
  | enter (s : σ) (next : List ι) (after : σ → σ)

def bindStep (f : σ → ι → Option σ) : Option σ → ι → Option σ
  | none, _ => none
  | some s, i => f s i

def traverse (visit : σ → ι → Step σ ι) : ℕ → σ → ι → Option σ
  | 0, _, _ => none
  | fuel + 1, s, i =>
    match visit s i with
    | .done s => some s
    | .enter s next after => (runSteps (bindStep (traverse visit fuel)) (some s) next).map after

def Meets (visit : σ → ι → Step σ ι) (Q : σ → ι → Prop) : ℕ → σ → ι → Prop
  | 0, _, _ => True
  | fuel + 1, s, i => Q s i ∧
    match visit s i with
    | .done _ => True
    | .enter s next _ =>
      Along (bindStep (traverse visit fuel)) (fun r j => ∀ t ∈ r, Meets visit Q fuel t j) (some s) next

instance Meets.decidable {visit : σ → ι → Step σ ι} {Q : σ → ι → Prop} [∀ s i, Decidable (Q s i)] :
    ∀ (fuel : ℕ) (s : σ) (i : ι), Decidable (Meets visit Q fuel s i)
  | 0, _, _ => isTrue trivial
  | fuel + 1, s, i =>
    have : ∀ s i, Decidable (Meets visit Q fuel s i) := Meets.decidable fuel
    match hvisit : visit s i with
    | .done _ => decidable_of_iff (Q s i) (by rw [Meets, hvisit, and_true])
    | .enter s' next after =>
      decidable_of_iff (Q s i ∧ Along (bindStep (traverse visit fuel)) (fun r j => ∀ t ∈ r, Meets visit Q fuel t j)
        (some s') next) (by rw [Meets, hvisit])

theorem bindStep_eq_some {f : σ → ι → Option σ} {r : Option σ} {i : ι} {s' : σ} (h : bindStep f r i = some s') :
    ∃ s, r = some s ∧ f s i = some s' := by
  cases r with
  | none => cases h
  | some s => exact ⟨s, rfl, h⟩

section Returns
variable {visit : σ → ι → Step σ ι} {μ : σ → ℕ} {I : ι → Prop}

theorem loop_returns {f : σ → ι → Option σ} {n : ℕ} (hf : ∀ s i, I i → μ s ≤ n → ∃ s', f s i = some s' ∧ μ s' ≤ μ s)
    {next : List ι} (hnext : ∀ j ∈ next, I j) {s : σ} (hs : μ s ≤ n) :
    ∃ s', runSteps (bindStep f) (some s) next = some s' ∧ μ s' ≤ μ s := by
  refine run_preserves_mem (fun r => ∃ t, r = some t ∧ μ t ≤ μ s) next ?_ ⟨s, rfl, le_rfl⟩
  rintro _ j hj ⟨t, rfl, ht⟩
  obtain ⟨t', hft, hle⟩ := hf t j (hnext j hj) (ht.trans hs)
  exact ⟨t', hft, hle.trans ht⟩

theorem traverse_returns (hdone : ∀ s i s', I i → visit s i = .done s' → μ s' ≤ μ s)
    (henter : ∀ s i s' next after, I i → visit s i = .enter s' next after →
      μ s' < μ s ∧ (∀ j ∈ next, I j) ∧ ∀ t, μ (after t) ≤ μ t)
    (fuel : ℕ) (s : σ) (i : ι) (hi : I i) (h : μ s < fuel) : ∃ s', traverse visit fuel s i = some s' ∧ μ s' ≤ μ s := by
  induction fuel generalizing s i with
  | zero => cases h
  | succ fuel ih =>
    rw [traverse]
    cases hvisit : visit s i with
    | done s' => exact ⟨s', rfl, hdone s i s' hi hvisit⟩
    | enter s' next after =>
      obtain ⟨hlt, hnext, hafter⟩ := henter s i s' next after hi hvisit
      obtain ⟨t, ht, hle⟩ := loop_returns (fun s j hj hs => ih s j hj (lt_of_le_of_lt hs (lt_of_lt_of_le hlt (Nat.le_of_lt_succ h))))
        hnext (le_refl (μ s'))
      exact ⟨after t, congrArg (Option.map after) ht, (hafter t).trans (hle.trans hlt.le)⟩

end Returns

section Rule
variable {visit : σ → ι → Step σ ι} {Q : σ → ι → Prop} {I : ι → Prop} {Rel : σ → σ → Prop} {Done : σ → ι → Prop}
  (hrefl : ∀ s, Rel s s) (htrans : ∀ s s' s'', Rel s s' → Rel s' s'' → Rel s s'')
  (hmono : ∀ s s' i, Rel s s' → Done s i → Done s' i)
include hrefl htrans hmono

theorem loop_rule {f : σ → ι → Option σ} {R : σ → ι → Prop}
    (hf : ∀ s i s', I i → R s i → f s i = some s' → Rel s s' ∧ Done s' i) {next : List ι} (hnext : ∀ j ∈ next, I j)
    {s s' : σ} (hR : Along (bindStep f) (fun r j => ∀ t ∈ r, R t j) (some s) next)
    (h : runSteps (bindStep f) (some s) next = some s') : Rel s s' ∧ ∀ j ∈ next, Done s' j := by
  induction next using List.reverseRecOn generalizing s' with
  | nil =>
    cases h
    exact ⟨hrefl s, fun j hj => absurd hj List.not_mem_nil⟩
  | append_singleton next i ih =>
    rw [runSteps_append, runSteps_cons, runSteps_nil] at h
    obtain ⟨hR, hRi⟩ := along_append.mp hR
    obtain ⟨t, ht, hti⟩ := bindStep_eq_some h
    rw [ht] at hRi
    obtain ⟨hbefore, hall⟩ := ih (fun j hj => hnext j (List.mem_append_left _ hj)) hR ht
    obtain ⟨hlast, hdone⟩ := hf t i s' (hnext i (List.mem_append_right _ (List.mem_singleton_self i))) (hRi.1 t rfl) hti
    refine ⟨htrans _ _ _ hbefore hlast, fun j hj => ?_⟩
    rcases List.mem_append.mp hj with hmem | hmem
    · exact hmono _ _ _ hlast (hall j hmem)
    · rw [List.mem_singleton.mp hmem]
      exact hdone

theorem traverse_rule
    (hdone : ∀ s i s', I i → Q s i → visit s i = .done s' → Rel s s' ∧ Done s' i)
    (henter : ∀ s i s' next after, I i → Q s i → visit s i = .enter s' next after → (∀ j ∈ next, I j) ∧
      ∀ t, Rel s' t → (∀ j ∈ next, Done t j) → Rel s (after t) ∧ Done (after t) i)
    (fuel : ℕ) (s : σ) (i : ι) (s' : σ) (hi : I i) (hmeets : Meets visit Q fuel s i)
    (h : traverse visit fuel s i = some s') : Rel s s' ∧ Done s' i := by
  induction fuel generalizing s i s' with
  | zero => cases h
  | succ fuel ih =>
    rw [traverse] at h
    rw [Meets] at hmeets
    cases hvisit : visit s i with
    | done t =>
      rw [hvisit] at h
      cases h
      exact hdone s i _ hi hmeets.1 hvisit
    | enter t next after =>
      rw [hvisit] at h hmeets
      obtain ⟨t', ht', rfl⟩ := Option.map_eq_some_iff.mp h
      obtain ⟨hnext, hafter⟩ := henter s i t next after hi hmeets.1 hvisit
      obtain ⟨hrel, hall⟩ := loop_rule hrefl htrans hmono ih hnext hmeets.2 ht'
      exact hafter t' hrel hall

end Rule

end Neufbox.Traverse
