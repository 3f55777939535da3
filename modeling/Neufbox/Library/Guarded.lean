import Mathlib.Tactic

/-! # Steps with exact conditions

Computations that may end in an error, where some of the errors must not happen. `Safe` says that none of these
happens; `Needs r S p` says that the step `r` has a result with the property `S` under the condition `p`, and makes
one of these errors without it. Steps with such conditions compose. Nothing here names a program. -/
namespace Neufbox.Guarded
set_option autoImplicit false
set_option maxHeartbeats 250000

variable {ε α β : Type} {bad : ε → Prop}

def Safe (bad : ε → Prop) (r : Except ε α) : Prop := ∀ e, r = .error e → ¬ bad e

structure Needs (bad : ε → Prop) (r : Except ε α) (S : α → Prop) (p : Prop) : Prop where
  result : p → ∃ a, r = .ok a ∧ S a
  fails : ¬ p → ¬ Safe bad r

@[simp] theorem ok_bind (a : α) (f : α → Except ε β) : (.ok a : Except ε α) >>= f = f a := rfl

@[simp] theorem error_bind (e : ε) (f : α → Except ε β) : (.error e : Except ε α) >>= f = .error e := rfl

theorem ite_bind {c : Prop} [Decidable c] (r r' : Except ε α) (f : α → Except ε β) :
    (if c then r else r') >>= f = if c then r >>= f else r' >>= f := by
  split <;> rfl

theorem ok_of_bind {r : Except ε α} {f : α → Except ε β} {b : β} (h : r >>= f = .ok b) :
    ∃ a, r = .ok a ∧ f a = .ok b := by
  cases r with
  | ok a => exact ⟨a, rfl, h⟩
  | error e => cases h

@[simp] theorem safe_ok (a : α) : Safe bad (.ok a : Except ε α) := by
  intro e he
  cases he

@[simp] theorem safe_pure (a : α) : Safe bad (pure a : Except ε α) := safe_ok a

@[simp] theorem safe_error (e : ε) : Safe bad (.error e : Except ε α) ↔ ¬ bad e := by
  constructor
  · intro h
    exact h e rfl
  · intro h e' he
    cases he
    exact h

@[simp] theorem safe_throw (e : ε) : Safe bad (throw e : Except ε α) ↔ ¬ bad e := safe_error e

theorem not_safe_bind {r : Except ε α} (h : ¬ Safe bad r) (f : α → Except ε β) : ¬ Safe bad (r >>= f) := by
  cases r with
  | ok a => exact absurd (safe_ok a) h
  | error e =>
    rw [safe_error] at h
    rwa [error_bind, safe_error]

theorem safe_bind_of_ok {r : Except ε α} {f : α → Except ε β} (hf : ∀ a, r = .ok a → Safe bad (f a)) :
    Safe bad (r >>= f) ↔ Safe bad r := by
  cases r with
  | ok a => exact iff_of_true (hf a rfl) (safe_ok a)
  | error e => rw [error_bind, safe_error, safe_error]

theorem safe_bind_iff {r : Except ε α} {f : α → Except ε β} :
    Safe bad (r >>= f) ↔ Safe bad r ∧ ∀ a, r = .ok a → Safe bad (f a) := by
  cases r with
  | ok a => simp
  | error e => simp

section Needs
variable {r : Except ε α} {S : α → Prop} {p : Prop}

theorem Needs.safe (h : Needs bad r S p) : Safe bad r ↔ p := by
  constructor
  · intro hsafe
    by_contra hp
    exact h.fails hp hsafe
  · intro hp
    obtain ⟨a, rfl, -⟩ := h.result hp
    exact safe_ok a

theorem Needs.of_ok (h : Needs bad r S p) {a : α} (ha : r = .ok a) : S a := by
  have hp : p := h.safe.mp (by rw [ha]; exact safe_ok a)
  obtain ⟨a', ha', hS⟩ := h.result hp
  obtain rfl : a' = a := Except.ok.inj (ha'.symm.trans ha)
  exact hS

theorem Needs.ok {a : α} (ha : S a) : Needs bad (.ok a : Except ε α) S True :=
  ⟨fun _ => ⟨a, rfl, ha⟩, fun h => absurd trivial h⟩

theorem Needs.mono {S' : α → Prop} {q : Prop} (h : Needs bad r S p) (hS : ∀ a, S a → S' a) (hpq : p ↔ q) :
    Needs bad r S' q := by
  constructor
  · intro hq
    obtain ⟨a, ha, hSa⟩ := h.result (hpq.mpr hq)
    exact ⟨a, ha, hS a hSa⟩
  · intro hq
    exact h.fails fun hp => hq (hpq.mp hp)

/-- A guard. -/
theorem Needs.ite {a : α} {e : ε} [Decidable p] (ha : p → S a) (he : bad e) :
    Needs bad (if p then .ok a else .error e : Except ε α) S p := by
  constructor
  · intro hp
    exact ⟨a, if_pos hp, ha hp⟩
  · intro hp
    rw [if_neg hp, safe_error]
    exact not_not_intro he

/-- A step whose condition is met makes way for the rest. -/
theorem Needs.bind {f : α → Except ε β} {T : β → Prop} {q : Prop} (h : Needs bad r S p)
    (hf : p → ∀ a, S a → Needs bad (f a) T q) : Needs bad (r >>= f) T (p ∧ q) := by
  constructor
  · rintro ⟨hp, hq⟩
    obtain ⟨a, rfl, ha⟩ := h.result hp
    exact (hf hp a ha).result hq
  · intro hpq
    by_cases hp : p
    · obtain ⟨a, rfl, ha⟩ := h.result hp
      exact (hf hp a ha).fails fun hq => hpq ⟨hp, hq⟩
    · exact not_safe_bind (h.fails hp) f

theorem Needs.safe_bind {f : α → Except ε β} {q : Prop} (h : Needs bad r S p)
    (hf : p → ∀ a, S a → (Safe bad (f a) ↔ q)) : Safe bad (r >>= f) ↔ p ∧ q := by
  by_cases hp : p
  · obtain ⟨a, rfl, ha⟩ := h.result hp
    exact (hf hp a ha).trans (iff_and_self.mpr fun _ => hp)
  · exact iff_of_false (not_safe_bind (h.fails hp) f) fun hpq => hp hpq.1

end Needs

/-! ## Results -/

/-- What holds of a result, if there is one. -/
def Gives (r : Except ε α) (S : α → Prop) : Prop := ∀ a, r = .ok a → S a

section Gives
variable {r : Except ε α} {S : α → Prop}

theorem Needs.gives {p : Prop} (h : Needs bad r S p) : Gives r S := fun _ ha => h.of_ok ha

theorem Needs.gives_and {p : Prop} (h : Needs bad r S p) : Gives r fun a => S a ∧ p := by
  intro a ha
  exact ⟨h.of_ok ha, h.safe.mp (by rw [ha]; exact safe_ok a)⟩

theorem gives_error (e : ε) : Gives (.error e : Except ε α) S := by
  intro a ha
  cases ha

theorem gives_ok {a : α} (h : S a) : Gives (.ok a : Except ε α) S := by
  intro a' ha
  cases ha
  exact h

theorem Gives.mono {T : α → Prop} (h : Gives r S) (hST : ∀ a, S a → T a) : Gives r T := fun a ha => hST a (h a ha)

theorem Gives.bind {f : α → Except ε β} {T : β → Prop} (h : Gives r S) (hf : ∀ a, S a → Gives (f a) T) :
    Gives (r >>= f) T := by
  cases r with
  | ok a => exact hf a (h a rfl)
  | error e => exact gives_error e

end Gives

end Neufbox.Guarded
