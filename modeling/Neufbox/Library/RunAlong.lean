import Mathlib.Tactic

/-! Runs of a deterministic state machine, and what holds along them.

* `runSteps step s is`: the state after the inputs `is`.
* `Along step P s is`: `P` holds of every pair (state before the step, input) of the run.
* `Along.preserves` is the invariant rule, with a guard `P` on the steps taken;
  `Along.imp` turns a step lemma under the invariant into a fact about every step of the run.
* `runSteps_view`: inputs that each touch their own part of the state, and come at most once.
-/
namespace Neufbox.RunAlong
set_option autoImplicit false
set_option maxHeartbeats 250000

variable {σ ι : Type}

def runSteps (step : σ → ι → σ) (s : σ) (is : List ι) : σ := is.foldl step s

@[simp] theorem runSteps_nil (step : σ → ι → σ) (s : σ) : runSteps step s [] = s := rfl

@[simp] theorem runSteps_cons (step : σ → ι → σ) (s : σ) (i : ι) (is : List ι) :
    runSteps step s (i :: is) = runSteps step (step s i) is := rfl

theorem runSteps_append (step : σ → ι → σ) (s : σ) (is js : List ι) :
    runSteps step s (is ++ js) = runSteps step (runSteps step s is) js := List.foldl_append

def Along (step : σ → ι → σ) (P : σ → ι → Prop) : σ → List ι → Prop
  | _, [] => True
  | s, i :: is => P s i ∧ Along step P (step s i) is

@[simp] theorem along_nil (step : σ → ι → σ) (P : σ → ι → Prop) (s : σ) : Along step P s [] :=
  trivial

@[simp] theorem along_cons (step : σ → ι → σ) (P : σ → ι → Prop) (s : σ) (i : ι) (is : List ι) :
    Along step P s (i :: is) ↔ P s i ∧ Along step P (step s i) is := Iff.rfl

theorem along_append {step : σ → ι → σ} {P : σ → ι → Prop} {s : σ} {is js : List ι} :
    Along step P s (is ++ js) ↔ Along step P s is ∧ Along step P (runSteps step s is) js := by
  induction is generalizing s with
  | nil => simp
  | cons i is ih => simp [ih, and_assoc]

instance Along.decidable {step : σ → ι → σ} {P : σ → ι → Prop} [∀ s i, Decidable (P s i)] :
    ∀ (s : σ) (is : List ι), Decidable (Along step P s is)
  | _, [] => isTrue trivial
  | s, i :: is =>
    match (inferInstance : Decidable (P s i)), Along.decidable (step s i) is with
    | isTrue h, isTrue h' => isTrue ⟨h, h'⟩
    | isFalse h, _ => isFalse fun hs => h hs.1
    | _, isFalse h => isFalse fun hs => h hs.2

theorem along_true (step : σ → ι → σ) (s : σ) (is : List ι) : Along step (fun _ _ => True) s is := by
  induction is generalizing s with
  | nil => trivial
  | cons i is ih => exact ⟨trivial, ih (step s i)⟩

theorem Along.and {step : σ → ι → σ} {P Q : σ → ι → Prop} {s : σ} {is : List ι}
    (hP : Along step P s is) (hQ : Along step Q s is) : Along step (fun s i => P s i ∧ Q s i) s is := by
  induction is generalizing s with
  | nil => trivial
  | cons i is ih => exact ⟨⟨hP.1, hQ.1⟩, ih hP.2 hQ.2⟩

theorem Along.preserves {step : σ → ι → σ} {P : σ → ι → Prop} {Inv : σ → Prop} {s : σ} {is : List ι}
    (hstep : ∀ s i, Inv s → P s i → Inv (step s i)) (hs : Inv s) (h : Along step P s is) :
    Inv (runSteps step s is) := by
  induction is generalizing s with
  | nil => exact hs
  | cons i is ih => exact ih (hstep s i hs h.1) h.2

theorem Along.imp {step : σ → ι → σ} {P Q : σ → ι → Prop} {Inv : σ → Prop} {s : σ} {is : List ι}
    (hstep : ∀ s i, Inv s → P s i → Inv (step s i)) (hQ : ∀ s i, Inv s → P s i → Q s i)
    (hs : Inv s) (h : Along step P s is) : Along step Q s is := by
  induction is generalizing s with
  | nil => trivial
  | cons i is ih => exact ⟨hQ s i hs h.1, ih (hstep s i hs h.1) h.2⟩

theorem run_preserves {step : σ → ι → σ} (Inv : σ → Prop) {s : σ} (is : List ι)
    (hstep : ∀ s i, Inv s → Inv (step s i)) (hs : Inv s) : Inv (runSteps step s is) :=
  Along.preserves (fun s i h _ => hstep s i h) hs (along_true step s is)

theorem run_preserves_mem {step : σ → ι → σ} (Inv : σ → Prop) {s : σ} (is : List ι)
    (hstep : ∀ s, ∀ i ∈ is, Inv s → Inv (step s i)) (hs : Inv s) : Inv (runSteps step s is) :=
  List.foldlRecOn is step hs fun s h i hi => hstep s i hi h

/-! ## Parts of the state -/

/-- A part of the state that steps by itself runs by itself. -/
theorem runSteps_hom {τ : Type} {step : σ → ι → σ} {view : σ → τ} {step' : τ → ι → τ}
    (hstep : ∀ s i, view (step s i) = step' (view s) i) (s : σ) (is : List ι) :
    view (runSteps step s is) = runSteps step' (view s) is := by
  induction is generalizing s with
  | nil => rfl
  | cons i is ih => rw [runSteps_cons, runSteps_cons, ih, hstep]

section View
variable {β : Type} {step : σ → ι → σ} {view : σ → ι → β}

theorem runSteps_view_other (hother : ∀ s i j, j ≠ i → view (step s i) j = view s j) {s : σ} {is : List ι} {j : ι}
    (hj : j ∉ is) : view (runSteps step s is) j = view s j := by
  induction is generalizing s with
  | nil => rfl
  | cons i is ih =>
    rw [List.mem_cons, not_or] at hj
    rw [runSteps_cons, ih hj.2, hother s i j hj.1]

/-- The part that belongs to an input changes with that input only. -/
theorem runSteps_view (hother : ∀ s i j, j ≠ i → view (step s i) j = view s j) (s : σ) {is : List ι}
    (hnodup : is.Nodup) {j : ι} (hj : j ∈ is) :
    ∃ t, view t j = view s j ∧ view (runSteps step s is) j = view (step t j) j := by
  induction is generalizing s with
  | nil => cases hj
  | cons i is ih =>
    obtain ⟨hni, hnodup⟩ := List.nodup_cons.mp hnodup
    rcases List.mem_cons.mp hj with rfl | hmem
    · exact ⟨s, rfl, runSteps_view_other hother hni⟩
    · have hne : j ≠ i := by
        rintro rfl
        exact hni hmem
      obtain ⟨t, hview, hrun⟩ := ih (step s i) hnodup hmem
      exact ⟨t, hview.trans (hother s i j hne), hrun⟩

/-- When each input changes its part as `f` says, so does the run. -/
theorem runSteps_view_map [DecidableEq ι] {f : ι → β → β} (hother : ∀ s i j, j ≠ i → view (step s i) j = view s j)
    (hself : ∀ s i, view (step s i) i = f i (view s i)) (s : σ) {is : List ι} (hnodup : is.Nodup) (j : ι) :
    view (runSteps step s is) j = if j ∈ is then f j (view s j) else view s j := by
  split
  · rename_i hj
    obtain ⟨t, hview, hrun⟩ := runSteps_view hother s hnodup hj
    rw [hrun, hself, hview]
  · rename_i hj
    exact runSteps_view_other hother hj

end View

end Neufbox.RunAlong
