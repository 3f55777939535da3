import Mathlib.Tactic
import Mathlib.Data.List.FinRange

/-! Hash tables with chaining, over any entry type with a key. A table is one list of entries per
bucket; a lookup walks the list of the key's bucket. `WellHashed` says that every entry is in the
bucket of its key and that no chain holds a key twice; then a table is a finite map, and the
operations below act on it as on a map. -/
namespace Neufbox.ChainTable
set_option autoImplicit false
set_option maxHeartbeats 250000

variable {τ κ : Type} [DecidableEq κ] (key : τ → κ)

/-! ## Chains -/

def findKey (k : κ) : List τ → Option τ
  | [] => none
  | t :: ts => if key t = k then some t else findKey k ts

def replaceKey (k : κ) (u : τ) : List τ → List τ
  | [] => []
  | t :: ts => if key t = k then u :: ts else t :: replaceKey k u ts

def unlinkKey (k : κ) : List τ → List τ
  | [] => []
  | t :: ts => if key t = k then ts else t :: unlinkKey k ts

variable {key} {k k' : κ} {t u : τ} {ts : List τ}

theorem findKey_some (h : findKey key k ts = some t) : t ∈ ts ∧ key t = k := by
  induction ts with
  | nil => simp [findKey] at h
  | cons x ts ih =>
    by_cases hx : key x = k
    · rw [findKey, if_pos hx] at h
      obtain rfl := Option.some.inj h
      exact ⟨List.mem_cons_self, hx⟩
    · rw [findKey, if_neg hx] at h
      exact ⟨List.mem_cons_of_mem x (ih h).1, (ih h).2⟩

theorem findKey_none : findKey key k ts = none ↔ k ∉ ts.map key := by
  induction ts with
  | nil => simp [findKey]
  | cons x ts ih =>
    by_cases hx : key x = k
    · simp [findKey, hx]
    · rw [findKey, if_neg hx, ih, List.map_cons, List.mem_cons]
      simp [Ne.symm hx]

theorem findKey_of_mem (hnd : (ts.map key).Nodup) (ht : t ∈ ts) : findKey key (key t) ts = some t := by
  induction ts with
  | nil => simp at ht
  | cons x ts ih =>
    rw [List.map_cons, List.nodup_cons] at hnd
    rcases List.mem_cons.mp ht with rfl | ht'
    · rw [findKey, if_pos rfl]
    · have hne : key x ≠ key t := fun he => hnd.1 (he ▸ List.mem_map_of_mem ht')
      rw [findKey, if_neg hne, ih hnd.2 ht']

theorem findKey_replaceKey (hu : key u = k) :
    findKey key k' (replaceKey key k u ts) =
      if k' = k then (findKey key k ts).map fun _ => u else findKey key k' ts := by
  induction ts with
  | nil => simp [replaceKey, findKey]
  | cons x ts ih =>
    by_cases hx : key x = k
    · by_cases hk : k' = k
      · simp [replaceKey, findKey, hx, hu, hk]
      · simp [replaceKey, findKey, hx, hu, hk, Ne.symm hk]
    · rw [replaceKey, if_neg hx, findKey, ih]
      by_cases hk : k' = k
      · simp [findKey, hx, hk]
      · simp only [hk, if_false, findKey]

theorem findKey_unlinkKey (hnd : (ts.map key).Nodup) :
    findKey key k' (unlinkKey key k ts) = if k' = k then none else findKey key k' ts := by
  induction ts with
  | nil => simp [unlinkKey, findKey]
  | cons x ts ih =>
    rw [List.map_cons, List.nodup_cons] at hnd
    by_cases hx : key x = k
    · rw [unlinkKey, if_pos hx]
      by_cases hk : k' = k
      · rw [if_pos hk, hk, ← hx]
        exact findKey_none.mpr hnd.1
      · rw [if_neg hk, findKey, if_neg (fun h => hk (h.symm.trans hx))]
    · rw [unlinkKey, if_neg hx, findKey, ih hnd.2, findKey]
      by_cases hk : k' = k
      · simp [hx, hk]
      · simp only [hk, if_false]

theorem replaceKey_keys (hu : key u = k) : (replaceKey key k u ts).map key = ts.map key := by
  induction ts with
  | nil => rfl
  | cons x ts ih =>
    by_cases hx : key x = k
    · simp [replaceKey, hx, hu]
    · simp [replaceKey, hx, ih]

theorem mem_replaceKey (h : t ∈ replaceKey key k u ts) : t = u ∨ t ∈ ts := by
  induction ts with
  | nil => simp [replaceKey] at h
  | cons x ts ih =>
    by_cases hx : key x = k
    · rw [replaceKey, if_pos hx, List.mem_cons] at h
      exact h.imp_right (List.mem_cons_of_mem x)
    · rw [replaceKey, if_neg hx, List.mem_cons] at h
      rcases h with rfl | h
      · exact Or.inr List.mem_cons_self
      · exact (ih h).imp_right (List.mem_cons_of_mem x)

theorem unlinkKey_sublist : (unlinkKey key k ts).Sublist ts := by
  induction ts with
  | nil => exact List.Sublist.refl _
  | cons x ts ih =>
    by_cases hx : key x = k
    · rw [unlinkKey, if_pos hx]; exact List.sublist_cons_self x ts
    · rw [unlinkKey, if_neg hx]; exact ih.cons_cons x

/-! ## Tables -/

variable {n : ℕ}

/-- Every entry is in the bucket of its key, and no chain holds a key twice. -/
structure WellHashed (key : τ → κ) (bucket : κ → Fin n) (tab : Fin n → List τ) : Prop where
  placed : ∀ i, ∀ t ∈ tab i, bucket (key t) = i
  nodup : ∀ i, ((tab i).map key).Nodup

def entries (tab : Fin n → List τ) : List τ := (List.finRange n).flatMap tab

variable {bucket : κ → Fin n} {tab : Fin n → List τ}

theorem mem_entries : t ∈ entries tab ↔ ∃ i, t ∈ tab i := by
  simp [entries]

omit [DecidableEq κ] in
theorem wellHashed_empty : WellHashed key bucket (fun _ => ([] : List τ)) :=
  ⟨by simp, by simp⟩

theorem WellHashed.lookup_iff (h : WellHashed key bucket tab) :
    findKey key k (tab (bucket k)) = some t ↔ t ∈ entries tab ∧ key t = k := by
  constructor
  · intro hf
    obtain ⟨hmem, hkey⟩ := findKey_some hf
    exact ⟨mem_entries.mpr ⟨_, hmem⟩, hkey⟩
  · rintro ⟨hmem, rfl⟩
    obtain ⟨i, hi⟩ := mem_entries.mp hmem
    obtain rfl := h.placed i t hi
    exact findKey_of_mem (h.nodup _) hi

omit [DecidableEq κ] in
theorem WellHashed.entries_nodup (h : WellHashed key bucket tab) : ((entries tab).map key).Nodup := by
  rw [entries, List.map_flatMap, List.nodup_flatMap]
  refine ⟨fun i _ => h.nodup i, ?_⟩
  refine (List.nodup_finRange n).imp ?_
  intro i j hij
  change List.Disjoint ((tab i).map key) ((tab j).map key)
  intro k hi hj
  obtain ⟨t, ht, rfl⟩ := List.mem_map.mp hi
  obtain ⟨u, hu, he⟩ := List.mem_map.mp hj
  exact hij ((h.placed i t ht).symm.trans (he ▸ h.placed j u hu))

omit [DecidableEq κ] in
theorem WellHashed.update (h : WellHashed key bucket tab) {i : Fin n} {chain : List τ}
    (hplaced : ∀ t ∈ chain, bucket (key t) = i) (hnodup : (chain.map key).Nodup) :
    WellHashed key bucket (Function.update tab i chain) where
  placed := by
    intro j t ht
    by_cases hj : j = i
    · subst hj
      rw [Function.update_self] at ht
      exact hplaced t ht
    · rw [Function.update_of_ne hj] at ht
      exact h.placed j t ht
  nodup := by
    intro j
    by_cases hj : j = i
    · subst hj
      rw [Function.update_self]
      exact hnodup
    · rw [Function.update_of_ne hj]
      exact h.nodup j

end Neufbox.ChainTable
