import Mathlib.Tactic

/-! What a machine that runs by itself puts out, one output with every step.

* `outputs n s`: the first `n` outputs from a state on.
* `Emits s l t`: the machine puts out `l` on its way from `s` to `t`; such ways are put together by `Emits.trans`.
* `outputs_of_cycle`: a machine that comes back to the same kind of state repeats itself.

Nothing here names a program. -/
namespace Neufbox.Emission
set_option autoImplicit false
set_option maxHeartbeats 250000

variable {σ ω : Type} (next : σ → σ) (out : σ → ω)

def outputs : ℕ → σ → List ω
  | 0, _ => []
  | n + 1, s => out s :: outputs n (next s)

inductive Emits : σ → List ω → σ → Prop
  | done (s : σ) : Emits s [] s
  | step {s t : σ} {l : List ω} (h : Emits (next s) l t) : Emits s (out s :: l) t

/-- What comes first, and then a cycle for ever: its first `n` outputs. -/
def cyclic (first cycle : List ω) (n : ℕ) : List ω := (first ++ (List.replicate n cycle).flatten).take n

variable {next out}

theorem Emits.of_eq {s t : σ} {x : ω} (hout : out s = x) (hnext : next s = t) : Emits next out s [x] t := by
  subst hout hnext
  exact Emits.step (Emits.done _)

theorem Emits.trans {s t u : σ} {l l' : List ω} (h : Emits next out s l t) (h' : Emits next out t l' u) :
    Emits next out s (l ++ l') u := by
  induction h with
  | done s => exact h'
  | step _ ih => exact Emits.step (ih h')

theorem Emits.iterate {s t : σ} {l : List ω} (h : Emits next out s l t) : next^[l.length] s = t := by
  induction h with
  | done s => rfl
  | step _ ih => exact ih

theorem mem_outputs {n : ℕ} {s : σ} {x : ω} : x ∈ outputs next out n s ↔ ∃ i < n, x = out (next^[i] s) := by
  induction n generalizing s with
  | zero => simp [outputs]
  | succ n ih =>
    rw [outputs, List.mem_cons, ih]
    constructor
    · rintro (rfl | ⟨i, hi, rfl⟩)
      · exact ⟨0, Nat.succ_pos n, rfl⟩
      · exact ⟨i + 1, Nat.succ_lt_succ hi, rfl⟩
    · rintro ⟨i, hi, rfl⟩
      cases i with
      | zero => exact Or.inl rfl
      | succ i => exact Or.inr ⟨i, Nat.lt_of_succ_lt_succ hi, rfl⟩

theorem Emits.outputs_append {s t : σ} {l : List ω} (h : Emits next out s l t) (n : ℕ) :
    outputs next out (l.length + n) s = l ++ outputs next out n t := by
  induction h with
  | done s => simp
  | step _ ih => rw [List.length_cons, Nat.add_right_comm, outputs, ih, List.cons_append]

theorem Emits.outputs_eq {s t : σ} {l : List ω} (h : Emits next out s l t) : outputs next out l.length s = l := by
  simpa [outputs] using h.outputs_append 0

theorem outputs_take {n m : ℕ} (h : n ≤ m) (s : σ) : (outputs next out m s).take n = outputs next out n s := by
  induction m generalizing n s with
  | zero =>
    obtain rfl := Nat.le_zero.mp h
    rfl
  | succ m ih =>
    cases n with
    | zero => rfl
    | succ n => rw [outputs, outputs, List.take_succ_cons, ih (Nat.le_of_succ_le_succ h)]

/-! ## Cycles -/

theorem le_length_cycles (first : List ω) {cycle : List ω} (hne : cycle ≠ []) (n : ℕ) :
    n ≤ (first ++ (List.replicate n cycle).flatten).length := by
  have hpos : 1 ≤ cycle.length := List.length_pos_of_ne_nil hne
  have hcycles : n * 1 ≤ n * cycle.length := Nat.mul_le_mul_left n hpos
  simp only [List.length_append, List.length_flatten, List.map_replicate, List.sum_replicate, smul_eq_mul]
  omega

theorem map_cyclic {ω' : Type} (f : ω → ω') (first cycle : List ω) (n : ℕ) :
    (cyclic first cycle n).map f = cyclic (first.map f) (cycle.map f) n := by
  simp [cyclic, List.map_take, List.map_flatten]

/-- Where there is one output only, that is what comes. -/
theorem cyclic_of_forall_eq {first cycle : List ω} {x : ω} (hne : cycle ≠ []) (hfirst : ∀ y ∈ first, y = x)
    (hcycle : ∀ y ∈ cycle, y = x) (n : ℕ) : cyclic first cycle n = List.replicate n x := by
  rw [List.eq_replicate_iff]
  refine ⟨List.length_take_of_le (le_length_cycles first hne n), fun y hy => ?_⟩
  rcases List.mem_append.mp (List.mem_of_mem_take hy) with hy | hy
  · exact hfirst y hy
  · obtain ⟨l, hl, hyl⟩ := List.mem_flatten.mp hy
    obtain rfl := List.eq_of_mem_replicate hl
    exact hcycle y hyl

section Cycle
variable {At : σ → Prop} {cycle : List ω} (hcycle : ∀ s, At s → ∃ t, At t ∧ Emits next out s cycle t)
include hcycle

theorem emits_cycles {s : σ} (hs : At s) (n : ℕ) :
    ∃ t, At t ∧ Emits next out s (List.replicate n cycle).flatten t := by
  induction n generalizing s with
  | zero => exact ⟨s, hs, Emits.done s⟩
  | succ n ih =>
    obtain ⟨t, ht, hemits⟩ := hcycle s hs
    obtain ⟨u, hu, hrest⟩ := ih ht
    rw [List.replicate_succ, List.flatten_cons]
    exact ⟨u, hu, hemits.trans hrest⟩

theorem outputs_of_cycle (hne : cycle ≠ []) {s t : σ} {first : List ω} (hfirst : Emits next out s first t) (ht : At t)
    (n : ℕ) : outputs next out n s = cyclic first cycle n := by
  obtain ⟨u, -, hcycles⟩ := emits_cycles hcycle ht n
  have hall := hfirst.trans hcycles
  rw [cyclic, ← outputs_take (le_length_cycles first hne n), hall.outputs_eq]

end Cycle

end Neufbox.Emission
