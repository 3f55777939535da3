import Mathlib.Tactic

/-! # Steps that may fail

Runs and maps of functions into `Option`: what every step keeps the whole run keeps, and every result of a map is
the result of one of its items. -/
namespace Neufbox.Library.Fallible
set_option autoImplicit false
set_option maxHeartbeats 250000
set_option maxRecDepth 120000

variable {σ α β : Type}

theorem foldlM_preserves {step : σ → α → Option σ} {I : σ → Prop} {xs : List α}
    (hstep : ∀ x ∈ xs, ∀ s s', I s → step s x = some s' → I s') {s s' : σ} (hs : I s)
    (h : xs.foldlM step s = some s') : I s' := by
  induction xs generalizing s with
  | nil =>
    cases h
    exact hs
  | cons x xs ih =>
    rw [List.foldlM_cons, Option.bind_eq_bind, Option.bind_eq_some_iff] at h
    obtain ⟨s₁, hfirst, h⟩ := h
    exact ih (fun x hx => hstep x (List.mem_cons_of_mem _ hx)) (hstep x List.mem_cons_self s s₁ hs hfirst) h

theorem mem_of_mapM {f : α → Option β} {xs : List α} {ys : List β} (h : xs.mapM f = some ys) {y : β} (hy : y ∈ ys) :
    ∃ x ∈ xs, f x = some y := by
  induction xs generalizing ys with
  | nil =>
    cases h
    cases hy
  | cons x xs ih =>
    simp only [List.mapM_cons, Option.bind_eq_bind, Option.bind_eq_some_iff, Option.pure_def, Option.some_inj] at h
    obtain ⟨y', hfirst, ys', hrest, rfl⟩ := h
    rcases List.mem_cons.mp hy with rfl | hy
    · exact ⟨x, List.mem_cons_self, hfirst⟩
    · obtain ⟨x', hmem, hx'⟩ := ih hrest hy
      exact ⟨x', List.mem_cons_of_mem _ hmem, hx'⟩

theorem forall₂_of_mapM {f : α → Option β} {xs : List α} {ys : List β} (h : xs.mapM f = some ys) :
    List.Forall₂ (fun x y => f x = some y) xs ys := by
  induction xs generalizing ys with
  | nil =>
    cases h
    exact List.Forall₂.nil
  | cons x xs ih =>
    simp only [List.mapM_cons, Option.bind_eq_bind, Option.bind_eq_some_iff, Option.pure_def, Option.some_inj] at h
    obtain ⟨y, hfirst, ys, hrest, rfl⟩ := h
    exact List.Forall₂.cons hfirst (ih hrest)

/-- What a property of the results says of the items. -/
theorem forall_mem_iff_of_mapM {f : α → Option β} {P : α → Prop} {Q : β → Prop} {xs : List α} {ys : List β}
    (h : xs.mapM f = some ys) (hPQ : ∀ x ∈ xs, ∀ y, f x = some y → (Q y ↔ P x)) :
    (∀ y ∈ ys, Q y) ↔ ∀ x ∈ xs, P x := by
  have hall := forall₂_of_mapM h
  clear h
  induction hall with
  | nil => simp
  | @cons x y xs ys hfirst _ ih =>
    rw [List.forall_mem_cons, List.forall_mem_cons]
    exact and_congr (hPQ x List.mem_cons_self y hfirst) (ih fun x hx => hPQ x (List.mem_cons_of_mem _ hx))

theorem mem_of_option_mapM {f : α → Option β} {x : Option α} {y : Option β} (h : x.mapM f = some y) {b : β}
    (hb : b ∈ y) : ∃ a ∈ x, f a = some b := by
  cases x with
  | none =>
    cases h
    cases hb
  | some a =>
    obtain ⟨b', hfirst, rfl⟩ := Option.map_eq_some_iff.mp h
    cases hb
    exact ⟨a, rfl, hfirst⟩

end Neufbox.Library.Fallible
