import Neufbox.Library.CString
import Neufbox.Library.ChainTable
import Neufbox.Library.RunAlong

/-! # The NVRAM variable table

The hash table half of `package/nvram/src/nvram.c`: 257 chains of name/value tuples and the list of
dead ones. A chain is the list of its tuples from the head on; allocations succeed.

The table is compared with a finite map from names to values: `specStep` is what an operation does
to the map, and `nvram_table_refines_map` says that the table follows it in every sequence of
operations. -/
namespace Neufbox.Nvram
open CString ChainTable RunAlong
set_option autoImplicit false
set_option maxHeartbeats 250000
set_option maxRecDepth 120000

/-! ## Tuples and chains -/

def nvramSpace : ℕ := 0x8000

def enomem : ℤ := -12

/-- A `char` of the target, which is signed, converted to `uint32_t`. -/
def signExtend (b : UInt8) : ℕ := if b.toNat < 128 then b.toNat else b.toNat + 2 ^ 32 - 256

def hash (s : CStr) : ℕ := s.bytes.foldl (fun h b => (31 * h + signExtend b) % 2 ^ 32) 0

def chainOf (name : CStr) : Fin 257 := ⟨hash name % 257, Nat.mod_lt _ (by norm_num)⟩

structure NvramTuple where
  name : CStr
  value : CStr
  deriving DecidableEq

/-- The hash table fields of `struct nvram_handle`. -/
structure NvramTable where
  nvramHash : Fin 257 → List NvramTuple
  nvramDead : List NvramTuple

def nvramFree : NvramTable := ⟨fun _ => [], []⟩

/-! ## Operations -/

def findTuple (h : NvramTable) (name : CStr) : Option NvramTuple :=
  findKey NvramTuple.name name (h.nvramHash (chainOf name))

def nvramGet (h : NvramTable) (name : CStr) : Option CStr := (findTuple h name).map NvramTuple.value

/-- `_nvram_realloc`: the tuple to store, the given one with its value replaced or a new one;
`none` when the value does not fit. -/
def nvramRealloc (t : Option NvramTuple) (name value : CStr) : Option NvramTuple :=
  if value.strlen + 1 > nvramSpace then none
  else match t with
    | none => some ⟨name, value⟩
    | some t => some { t with value := value }

def NvramTable.setChain (h : NvramTable) (i : Fin 257) (chain : List NvramTuple) : NvramTable :=
  { h with nvramHash := Function.update h.nvramHash i chain }

/-- `_nvram_realloc` returns the tuple it was given, so a tuple that is found is updated where it
is; the code after `t == u` that would move it to the dead list is never reached with a tuple. -/
def nvramSet (h : NvramTable) (name value : CStr) : NvramTable × ℤ :=
  let i := chainOf name
  let t := findTuple h name
  match nvramRealloc t name value with
  | none => (h, enomem)
  | some u =>
      match t with
      | some _ => (h.setChain i (replaceKey NvramTuple.name name u (h.nvramHash i)), 0)
      | none => (h.setChain i (u :: h.nvramHash i), 0)

def nvramUnset (h : NvramTable) (name : CStr) : NvramTable × ℤ :=
  let i := chainOf name
  match findTuple h name with
  | some t =>
      let h := h.setChain i (unlinkKey NvramTuple.name name (h.nvramHash i))
      ({ h with nvramDead := t :: h.nvramDead }, 0)
  | none => (h, 0)

/-- `nvram_getall`: the tuples in the order the result list links them, last one visited first. -/
def nvramGetall (h : NvramTable) : List NvramTuple :=
  (entries h.nvramHash).foldl (fun l t => ⟨t.name, t.value⟩ :: l) []

/-! ## The invariant -/

/-- Every name occurs in at most one tuple, in the chain of its hash. -/
def TableOk (h : NvramTable) : Prop := WellHashed NvramTuple.name chainOf h.nvramHash

theorem nvramFree_ok : TableOk nvramFree := wellHashed_empty

theorem findTuple_name {h : NvramTable} {name : CStr} {t : NvramTuple}
    (hf : findTuple h name = some t) : t.name = name := (findKey_some hf).2

theorem nvramRealloc_name {t : Option NvramTuple} {name value : CStr} {u : NvramTuple}
    (ht : ∀ x, t = some x → x.name = name) (hu : nvramRealloc t name value = some u) :
    u.name = name ∧ u.value = value := by
  unfold nvramRealloc at hu
  split at hu
  · cases hu
  · cases t with
    | none => cases hu; exact ⟨rfl, rfl⟩
    | some x => cases hu; exact ⟨ht x rfl, rfl⟩

theorem nvramRealloc_eq_none {t : Option NvramTuple} {name value : CStr} :
    nvramRealloc t name value = none ↔ value.strlen + 1 > nvramSpace := by
  unfold nvramRealloc
  split
  · next h => simp [h]
  · next h => cases t <;> simp [h]

/-- What `nvram_set` can do: refuse the value, update a tuple in place, or push a new one. -/
theorem nvramSet_cases (h : NvramTable) (name value : CStr) :
    (value.strlen + 1 > nvramSpace ∧ nvramSet h name value = (h, enomem)) ∨
    (value.strlen + 1 ≤ nvramSpace ∧ ∃ t, findTuple h name = some t ∧
      nvramSet h name value = (h.setChain (chainOf name)
        (replaceKey NvramTuple.name name ⟨name, value⟩ (h.nvramHash (chainOf name))), 0)) ∨
    (value.strlen + 1 ≤ nvramSpace ∧ findTuple h name = none ∧
      nvramSet h name value =
        (h.setChain (chainOf name) (⟨name, value⟩ :: h.nvramHash (chainOf name)), 0)) := by
  cases hu : nvramRealloc (findTuple h name) name value with
  | none => exact Or.inl ⟨nvramRealloc_eq_none.mp hu, by simp only [nvramSet, hu]⟩
  | some u =>
    have hfit : value.strlen + 1 ≤ nvramSpace := by
      by_contra hlt
      rw [nvramRealloc_eq_none.mpr (by omega)] at hu
      cases hu
    obtain ⟨hname, hvalue⟩ := nvramRealloc_name (fun x hx => findTuple_name hx) hu
    have he : u = ⟨name, value⟩ := by rw [← hname, ← hvalue]
    subst he
    cases hf : findTuple h name with
    | some t =>
      rw [hf] at hu
      exact Or.inr (Or.inl ⟨hfit, t, rfl, by simp only [nvramSet, hf, hu]⟩)
    | none =>
      rw [hf] at hu
      exact Or.inr (Or.inr ⟨hfit, rfl, by simp only [nvramSet, hf, hu]⟩)

theorem nvramSet_ok {h : NvramTable} (hok : TableOk h) (name value : CStr) :
    TableOk (nvramSet h name value).1 := by
  obtain ⟨-, he⟩ | ⟨-, t, ht, he⟩ | ⟨-, hnone, he⟩ := nvramSet_cases h name value <;> rw [he]
  · exact hok
  · refine hok.update ?_ ?_
    · intro x hx
      rcases mem_replaceKey hx with rfl | hx
      · rfl
      · exact hok.placed _ x hx
    · have hname : (⟨name, value⟩ : NvramTuple).name = name := rfl
      rw [replaceKey_keys hname]
      exact hok.nodup _
  · refine hok.update ?_ ?_
    · intro x hx
      rcases List.mem_cons.mp hx with rfl | hx
      · rfl
      · exact hok.placed _ x hx
    · rw [List.map_cons, List.nodup_cons]
      exact ⟨findKey_none.mp hnone, hok.nodup _⟩

theorem nvramUnset_ok {h : NvramTable} (hok : TableOk h) (name : CStr) :
    TableOk (nvramUnset h name).1 := by
  unfold nvramUnset
  cases findTuple h name with
  | none => exact hok
  | some t =>
    exact hok.update (fun x hx => hok.placed _ x (unlinkKey_sublist.mem hx))
      ((unlinkKey_sublist.map _).nodup (hok.nodup _))

/-! ## What the operations do to the lookups -/

theorem findTuple_nvramSet {h : NvramTable} {name value : CStr}
    (hfit : value.strlen + 1 ≤ nvramSpace) (n : CStr) :
    findTuple (nvramSet h name value).1 n =
      if n = name then some ⟨name, value⟩ else findTuple h n := by
  obtain ⟨hbig, -⟩ | ⟨-, t, ht, he⟩ | ⟨-, hnone, he⟩ := nvramSet_cases h name value
  · omega
  · rw [he]
    simp only [findTuple, NvramTable.setChain] at ht ⊢
    by_cases hc : chainOf n = chainOf name
    · have hname : (⟨name, value⟩ : NvramTuple).name = name := rfl
      rw [hc, Function.update_self, findKey_replaceKey hname, ht]
      rfl
    · have hn : n ≠ name := fun h => hc (h ▸ rfl)
      rw [Function.update_of_ne hc, if_neg hn]
  · rw [he]
    simp only [findTuple, NvramTable.setChain]
    by_cases hc : chainOf n = chainOf name
    · rw [hc, Function.update_self, findKey, ← hc]
      by_cases hn : n = name
      · rw [if_pos hn.symm, if_pos hn]
      · rw [if_neg (Ne.symm hn), if_neg hn]
    · have hn : n ≠ name := fun h => hc (h ▸ rfl)
      rw [Function.update_of_ne hc, if_neg hn]

theorem nvramGet_nvramSet {h : NvramTable} {name value : CStr}
    (hfit : value.strlen + 1 ≤ nvramSpace) (n : CStr) :
    nvramGet (nvramSet h name value).1 n = if n = name then some value else nvramGet h n := by
  rw [nvramGet, findTuple_nvramSet hfit]
  split <;> rfl

theorem nvramSet_too_long {h : NvramTable} {name value : CStr}
    (hbig : value.strlen + 1 > nvramSpace) : nvramSet h name value = (h, enomem) := by
  obtain ⟨-, he⟩ | ⟨hfit, -⟩ | ⟨hfit, -⟩ := nvramSet_cases h name value
  · exact he
  · omega
  · omega

theorem nvramGet_nvramUnset {h : NvramTable} (hok : TableOk h) (name n : CStr) :
    nvramGet (nvramUnset h name).1 n = if n = name then none else nvramGet h n := by
  unfold nvramGet nvramUnset
  cases hf : findTuple h name with
  | none =>
    by_cases hn : n = name
    · rw [if_pos hn, hn, hf]; rfl
    · rw [if_neg hn]
  | some t =>
    simp only [findTuple, NvramTable.setChain]
    by_cases hc : chainOf n = chainOf name
    · rw [hc, Function.update_self, findKey_unlinkKey (hok.nodup _), ← hc]
      split <;> rfl
    · have hn : n ≠ name := fun h => hc (h ▸ rfl)
      rw [Function.update_of_ne hc, if_neg hn]

theorem nvramGetall_eq (h : NvramTable) : nvramGetall h = (entries h.nvramHash).reverse := by
  have hfold : ∀ (ts l : List NvramTuple),
      ts.foldl (fun l t => ⟨t.name, t.value⟩ :: l) l = ts.reverse ++ l := by
    intro ts
    induction ts with
    | nil => intro l; rfl
    | cons t ts ih => intro l; rw [List.foldl_cons, ih, List.reverse_cons, List.append_assoc]; rfl
  rw [nvramGetall, hfold, List.append_nil]

theorem nvramGet_iff_mem {h : NvramTable} (hok : TableOk h) (name value : CStr) :
    nvramGet h name = some value ↔ (⟨name, value⟩ : NvramTuple) ∈ entries h.nvramHash := by
  rw [nvramGet, Option.map_eq_some_iff]
  constructor
  · rintro ⟨t, ht, rfl⟩
    obtain ⟨hmem, hname⟩ := hok.lookup_iff.mp ht
    rw [← hname]
    exact hmem
  · intro hmem
    exact ⟨_, hok.lookup_iff.mpr ⟨hmem, rfl⟩, rfl⟩

/-! ## Refinement of a finite map -/

inductive TableOp where
  | set (name value : CStr)
  | unset (name : CStr)
  | get (name : CStr)
  | getall
  deriving DecidableEq

inductive TableReply where
  | status (ret : ℤ)
  | value (v : Option CStr)
  | tuples (l : List NvramTuple)
  deriving DecidableEq

def tableExec (h : NvramTable) : TableOp → NvramTable × TableReply
  | .set name value => ((nvramSet h name value).1, .status (nvramSet h name value).2)
  | .unset name => ((nvramUnset h name).1, .status (nvramUnset h name).2)
  | .get name => (h, .value (nvramGet h name))
  | .getall => (h, .tuples (nvramGetall h))

def tableStep (h : NvramTable) (op : TableOp) : NvramTable := (tableExec h op).1

/-- An operation on the finite map: a set of a value that fits binds the name, an unset removes
the binding. -/
def specStep (m : CStr → Option CStr) : TableOp → (CStr → Option CStr)
  | .set name value =>
      if value.strlen + 1 ≤ nvramSpace then Function.update m name (some value) else m
  | .unset name => Function.update m name none
  | _ => m

def specMap (ops : List TableOp) : CStr → Option CStr := ops.foldl specStep fun _ => none

/-- The table is well formed and looks up the map. -/
structure Refines (h : NvramTable) (m : CStr → Option CStr) : Prop where
  ok : TableOk h
  get : ∀ name, nvramGet h name = m name

theorem tableStep_refines {h : NvramTable} {m : CStr → Option CStr} (hr : Refines h m) (op : TableOp) :
    Refines (tableStep h op) (specStep m op) := by
  cases op with
  | set name value =>
    refine ⟨nvramSet_ok hr.ok name value, fun n => ?_⟩
    by_cases hfit : value.strlen + 1 ≤ nvramSpace
    · simp only [tableStep, tableExec, specStep, if_pos hfit, nvramGet_nvramSet hfit,
        Function.update_apply, hr.get]
    · have hbig : value.strlen + 1 > nvramSpace := by omega
      simp only [tableStep, tableExec, specStep, if_neg hfit, nvramSet_too_long hbig, hr.get]
  | unset name =>
    refine ⟨nvramUnset_ok hr.ok name, fun n => ?_⟩
    simp only [tableStep, tableExec, specStep, nvramGet_nvramUnset hr.ok, Function.update_apply, hr.get]
  | get name => exact hr
  | getall => exact hr

theorem run_refines_from {h : NvramTable} {m : CStr → Option CStr} (hr : Refines h m)
    (ops : List TableOp) : Refines (runSteps tableStep h ops) (ops.foldl specStep m) := by
  induction ops generalizing h m with
  | nil => exact hr
  | cons op ops ih => exact ih (tableStep_refines hr op)

theorem run_refines (ops : List TableOp) : Refines (runSteps tableStep nvramFree ops) (specMap ops) :=
  run_refines_from ⟨nvramFree_ok, fun _ => rfl⟩ ops

/-- After every sequence of operations the table is the finite map the operations describe: names
are unique and in the chain of their hash, lookups give the bound values, a refused set changes
nothing, and the listing has each live variable once. -/
theorem nvram_table_refines_map (ops : List TableOp) :
    let h := runSteps tableStep nvramFree ops
    ((entries h.nvramHash).map NvramTuple.name).Nodup ∧
      (∀ i, ∀ t ∈ h.nvramHash i, i.val = hash t.name % 257) ∧
      (∀ name, tableExec h (.get name) = (h, .value (specMap ops name))) ∧
      (∀ name value, value.strlen + 1 > nvramSpace →
        (tableExec h (.set name value)).2 = .status enomem ∧
          ∀ n, nvramGet (tableStep h (.set name value)) n = nvramGet h n) ∧
      (∀ name value, value.strlen + 1 ≤ nvramSpace →
        (tableExec h (.set name value)).2 = .status 0) ∧
      ((nvramGetall h).map NvramTuple.name).Nodup ∧
      ∀ name value, (⟨name, value⟩ : NvramTuple) ∈ nvramGetall h ↔ nvramGet h name = some value := by
  intro h
  obtain ⟨hok, hget⟩ : Refines h (specMap ops) := run_refines ops
  refine ⟨hok.entries_nodup, ?_, ?_, ?_, ?_, ?_, ?_⟩
  · intro i t ht
    rw [← hok.placed i t ht]
    rfl
  · intro name
    rw [tableExec, hget]
  · intro name value hbig
    simp only [tableExec, tableStep, nvramSet_too_long hbig, implies_true, and_self]
  · intro name value hfit
    obtain ⟨hbig, -⟩ | ⟨-, t, ht, he⟩ | ⟨-, hnone, he⟩ := nvramSet_cases h name value
    · omega
    · rw [tableExec, he]
    · rw [tableExec, he]
  · rw [nvramGetall_eq, List.map_reverse, List.nodup_reverse]
    exact hok.entries_nodup
  · intro name value
    rw [nvramGetall_eq, List.mem_reverse, nvramGet_iff_mem hok]

end Neufbox.Nvram
