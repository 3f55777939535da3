import Neufbox.Library.RunAlong

/-! A depth-first search that passes a state along, and what it has served when it returns.

* `explore visit fuel s i`: visit `i`; what the visit asks for is explored in turn. The result says if all visits
  went well.
* `explore_returns`: it returns when each visit that asks for more lowers a measure.
* `Meets`: every visit of a search meets a condition, and every one but the first another.
* `explore_served`: under these conditions, all that is owed after the search is served or was owed before.
* `explore_preserves`: what holds of the state and of all that is visited.
* `logged`: the same search, with a list of what it has entered.
-/
namespace Neufbox.Search
open RunAlong
set_option autoImplicit false
set_option maxHeartbeats 250000

variable {σ ι κ : Type}

/-- A visit is over, or goes on with more to visit. -/
inductive Visit (σ ι : Type)
  | done (s : σ) (ok : Bool)
  | enter (s : σ) (next : List ι)

def thenVisit (f : σ → ι → Option (σ × Bool)) : Option (σ × Bool) → ι → Option (σ × Bool)
  | none, _ => none
  | some r, i => (f r.1 i).map fun r' => (r'.1, r.2 && r'.2)

def explore (visit : σ → ι → Visit σ ι) : ℕ → σ → ι → Option (σ × Bool)
  | 0, _, _ => none
  | fuel + 1, s, i =>
    match visit s i with
    | .done s ok => some (s, ok)
    | .enter s next => runSteps (thenVisit (explore visit fuel)) (some (s, true)) next

/-- `Q` holds at every visit, and `P` at every one that another visit asks for. -/
def Meets (visit : σ → ι → Visit σ ι) (P Q : σ → ι → Prop) : ℕ → σ → ι → Prop
  | 0, _, _ => True
  | fuel + 1, s, i => Q s i ∧
    match visit s i with
    | .done _ _ => True
    | .enter s next => Along (thenVisit (explore visit fuel))
        (fun r j => ∀ r' ∈ r, P r'.1 j ∧ Meets visit P Q fuel r'.1 j) (some (s, true)) next

instance Meets.decidable {visit : σ → ι → Visit σ ι} {P Q : σ → ι → Prop} [∀ s i, Decidable (P s i)]
    [∀ s i, Decidable (Q s i)] : ∀ (fuel : ℕ) (s : σ) (i : ι), Decidable (Meets visit P Q fuel s i)
  | 0, _, _ => isTrue trivial
  | fuel + 1, s, i =>
    have : ∀ s i, Decidable (Meets visit P Q fuel s i) := Meets.decidable fuel
    match hvisit : visit s i with
    | .done _ _ => decidable_of_iff (Q s i) (by rw [Meets, hvisit, and_true])
    | .enter s' next =>
      decidable_of_iff (Q s i ∧ Along (thenVisit (explore visit fuel))
        (fun r j => ∀ r' ∈ r, P r'.1 j ∧ Meets visit P Q fuel r'.1 j) (some (s', true)) next) (by rw [Meets, hvisit])

theorem thenVisit_eq_some {f : σ → ι → Option (σ × Bool)} {r : Option (σ × Bool)} {i : ι} {s' : σ}
    (h : thenVisit f r i = some (s', true)) : ∃ s, r = some (s, true) ∧ f s i = some (s', true) := by
  match r with
  | none => cases h
  | some (s, ok) =>
    obtain ⟨⟨s'', ok'⟩, hf, heq⟩ := Option.map_eq_some_iff.mp h
    obtain ⟨rfl, hok⟩ := Prod.mk.inj heq
    obtain ⟨rfl, rfl⟩ := Bool.and_eq_true_iff.mp hok
    exact ⟨s, rfl, hf⟩

section Returns
variable {visit : σ → ι → Visit σ ι} {μ : σ → ℕ}

theorem explore_returns (hdone : ∀ s i s' ok, visit s i = .done s' ok → μ s' ≤ μ s)
    (henter : ∀ s i s' next, visit s i = .enter s' next → μ s' < μ s) (fuel : ℕ) (s : σ) (i : ι) (h : μ s < fuel) :
    ∃ r, explore visit fuel s i = some r ∧ μ r.1 ≤ μ s := by
  induction fuel generalizing s i with
  | zero => cases h
  | succ fuel ih =>
    rw [explore]
    cases hvisit : visit s i with
    | done s' ok => exact ⟨_, rfl, hdone s i s' ok hvisit⟩
    | enter s' next =>
      have hlt : μ s' < μ s := henter s i s' next hvisit
      -- Along the loop the measure stays below the fuel that is left.
      have hloop : ∃ r, runSteps (thenVisit (explore visit fuel)) (some (s', true)) next = some r ∧ μ r.1 ≤ μ s' :=
        run_preserves (fun r : Option (σ × Bool) => ∃ r' : σ × Bool, r = some r' ∧ μ r'.1 ≤ μ s') next
          (by
            rintro _ j ⟨r, rfl, hr⟩
            obtain ⟨r', hr', hle⟩ := ih r.1 j (by omega)
            refine ⟨(r'.1, r.2 && r'.2), ?_, hle.trans hr⟩
            show (explore visit fuel r.1 j).map _ = _
            rw [hr', Option.map_some])
          ⟨_, rfl, le_rfl⟩
      obtain ⟨r, hr, hle⟩ := hloop
      exact ⟨r, hr, hle.trans hlt.le⟩

end Returns

section Served
variable {visit : σ → ι → Visit σ ι} {P Q : σ → ι → Prop} {le : σ → σ → Prop} {key : ι → κ}
  {served owed : σ → κ → Prop}

/-- What a search leaves: the state has grown, and nothing more is owed. -/
structure Served (le : σ → σ → Prop) (served owed : σ → κ → Prop) (s s' : σ) : Prop where
  grows : le s s'
  owes : ∀ k, owed s' k → owed s k ∨ served s' k

variable (hrefl : ∀ s, le s s) (htrans : ∀ s s' s'', le s s' → le s' s'' → le s s'')
  (hmono : ∀ s s' k, le s s' → served s k → served s' k)

include hrefl htrans hmono in
/-- A loop over visits serves all of them. -/
theorem loop_served {f : σ → ι → Option (σ × Bool)} {R : σ → ι → Prop}
    (hf : ∀ s i s', R s i → f s i = some (s', true) → Served le served owed s s' ∧ served s' (key i))
    {next : List ι} {s s' : σ} (hR : Along (thenVisit f) (fun r j => ∀ r' ∈ r, R r'.1 j) (some (s, true)) next)
    (h : runSteps (thenVisit f) (some (s, true)) next = some (s', true)) :
    Served le served owed s s' ∧ ∀ j ∈ next, served s' (key j) := by
  induction next using List.reverseRecOn generalizing s' with
  | nil =>
    obtain ⟨rfl, -⟩ := Prod.mk.inj (Option.some.inj h)
    exact ⟨⟨hrefl s, fun k hk => Or.inl hk⟩, fun j hj => absurd hj List.not_mem_nil⟩
  | append_singleton next i ih =>
    rw [runSteps_append, runSteps_cons, runSteps_nil] at h
    obtain ⟨hR, hRi⟩ := along_append.mp hR
    obtain ⟨t, ht, hti⟩ := thenVisit_eq_some h
    rw [ht] at hRi
    obtain ⟨hbefore, hall⟩ := ih hR ht
    obtain ⟨hlast, hserved⟩ := hf t i s' (hRi.1 _ rfl) hti
    refine ⟨⟨htrans _ _ _ hbefore.grows hlast.grows, fun k hk => ?_⟩, fun j hj => ?_⟩
    · rcases hlast.owes k hk with howed | hserved
      · exact (hbefore.owes k howed).imp_right (hmono _ _ k hlast.grows)
      · exact Or.inr hserved
    · rcases List.mem_append.mp hj with hmem | hmem
      · exact hmono _ _ _ hlast.grows (hall j hmem)
      · obtain rfl := List.mem_singleton.mp hmem
        exact hserved

include hrefl htrans hmono in
theorem explore_served
    (hdone : ∀ s i s', visit s i = .done s' true → Served le served owed s s' ∧ (P s i → served s' (key i)))
    (henter : ∀ s i s' next, visit s i = .enter s' next → Q s i → le s s' ∧ (P s i → served s' (key i)) ∧
      ∀ k, owed s' k → owed s k ∨ ∃ j ∈ next, key j = k)
    (fuel : ℕ) (s : σ) (i : ι) (s' : σ) (hmeets : Meets visit P Q fuel s i)
    (h : explore visit fuel s i = some (s', true)) :
    Served le served owed s s' ∧ (P s i → served s' (key i)) := by
  induction fuel generalizing s i s' with
  | zero => cases h
  | succ fuel ih =>
    rw [explore] at h
    rw [Meets] at hmeets
    cases hvisit : visit s i with
    | done t ok =>
      rw [hvisit] at h
      obtain ⟨rfl, rfl⟩ := Prod.mk.inj (Option.some.inj h)
      exact hdone s i _ hvisit
    | enter t next =>
      rw [hvisit] at h hmeets
      obtain ⟨hgrows, hself, howed⟩ := henter s i t next hvisit hmeets.1
      have hsub : ∀ s i s', P s i ∧ Meets visit P Q fuel s i → explore visit fuel s i = some (s', true) →
          Served le served owed s s' ∧ served s' (key i) :=
        fun s i s' hR hs => (ih s i s' hR.2 hs).imp_right fun hP => hP hR.1
      obtain ⟨hloop, hall⟩ := loop_served hrefl htrans hmono hsub hmeets.2 h
      refine ⟨⟨htrans _ _ _ hgrows hloop.grows, fun k hk => ?_⟩, fun hP => hmono _ _ _ hloop.grows (hself hP)⟩
      rcases hloop.owes k hk with hk | hserved
      · rcases howed k hk with hold | ⟨j, hj, rfl⟩
        · exact Or.inl hold
        · exact Or.inr (hall j hj)
      · exact Or.inr hserved

end Served

section Preserves
variable {visit : σ → ι → Visit σ ι} {Inv : σ → Prop} {I : ι → Prop} {Fails : Prop}

theorem loop_preserves {f : σ → ι → Option (σ × Bool)}
    (hf : ∀ s i r, Inv s → I i → f s i = some r → Inv r.1 ∧ (r.2 = true ∨ Fails)) {next : List ι} (hnext : ∀ j ∈ next, I j)
    {s : σ} (hs : Inv s) {r : σ × Bool} (h : runSteps (thenVisit f) (some (s, true)) next = some r) :
    Inv r.1 ∧ (r.2 = true ∨ Fails) := by
  have hrun : ∀ r ∈ runSteps (thenVisit f) (some (s, true)) next, Inv r.1 ∧ (r.2 = true ∨ Fails) := by
    refine run_preserves_mem (fun r : Option (σ × Bool) => ∀ r' ∈ r, Inv r'.1 ∧ (r'.2 = true ∨ Fails)) next ?_ ?_
    · intro r j hj hr r' hr'
      cases r with
      | none => cases hr'
      | some r =>
        obtain ⟨hinv, hok⟩ := hr r rfl
        obtain ⟨t, hft, rfl⟩ := Option.map_eq_some_iff.mp hr'
        obtain ⟨hinv', hok'⟩ := hf r.1 j t hinv (hnext j hj) hft
        refine ⟨hinv', ?_⟩
        rcases hok with hok | hfails
        · exact hok'.imp_left fun hok' => Bool.and_eq_true_iff.mpr ⟨hok, hok'⟩
        · exact Or.inr hfails
    · rintro r' ⟨⟩
      exact ⟨hs, Or.inl rfl⟩
  exact hrun r h

theorem explore_preserves
    (hdone : ∀ s i s' ok, Inv s → I i → visit s i = .done s' ok → Inv s' ∧ (ok = true ∨ Fails))
    (henter : ∀ s i s' next, Inv s → I i → visit s i = .enter s' next → Inv s' ∧ ∀ j ∈ next, I j)
    (fuel : ℕ) (s : σ) (i : ι) (r : σ × Bool) (hs : Inv s) (hi : I i) (h : explore visit fuel s i = some r) :
    Inv r.1 ∧ (r.2 = true ∨ Fails) := by
  induction fuel generalizing s i r with
  | zero => cases h
  | succ fuel ih =>
    rw [explore] at h
    cases hvisit : visit s i with
    | done s' ok =>
      rw [hvisit] at h
      cases h
      exact hdone s i s' ok hs hi hvisit
    | enter s' next =>
      rw [hvisit] at h
      obtain ⟨hs', hnext⟩ := henter s i s' next hs hi hvisit
      exact loop_preserves ih hnext hs' h

end Preserves

section Logged

def logged (visit : σ → ι → Visit σ ι) (s : σ × List ι) (i : ι) : Visit (σ × List ι) ι :=
  match visit s.1 i with
  | .done s' ok => .done (s', s.2) ok
  | .enter s' next => .enter (s', i :: s.2) next

/-- A result without its list. -/
def unlogged (r : Option ((σ × List ι) × Bool)) : Option (σ × Bool) := r.map fun r => (r.1.1, r.2)

theorem unlogged_thenVisit {f : σ × List ι → ι → Option ((σ × List ι) × Bool)} {g : σ → ι → Option (σ × Bool)}
    (hfg : ∀ s i, unlogged (f s i) = g s.1 i) (r : Option ((σ × List ι) × Bool)) (i : ι) :
    unlogged (thenVisit f r i) = thenVisit g (unlogged r) i := by
  cases r with
  | none => rfl
  | some r =>
    show unlogged ((f r.1 i).map _) = (g r.1.1 i).map _
    rw [← hfg, unlogged, unlogged, Option.map_map, Option.map_map]
    rfl

theorem explore_logged (visit : σ → ι → Visit σ ι) (fuel : ℕ) (s : σ × List ι) (i : ι) :
    unlogged (explore (logged visit) fuel s i) = explore visit fuel s.1 i := by
  induction fuel generalizing s i with
  | zero => rfl
  | succ fuel ih =>
    rw [explore, explore, logged]
    cases visit s.1 i with
    | done s' ok => rfl
    | enter s' next => exact runSteps_hom (unlogged_thenVisit ih) _ next

end Logged

end Neufbox.Search
