import Mathlib.Tactic

/-! Flash memory: blocks are erased to ones, and a write can only clear bits, so a byte takes the value that is
written where its block was erased before. What was done to a device is a list of operations. Nothing here names a
program. -/
namespace Neufbox.Flash
set_option autoImplicit false
set_option maxHeartbeats 250000

/-- `b` is the size of an erase block. -/
inductive Op
  | erase (off : ℕ)
  | write (off : ℕ) (data : List UInt8)
  deriving DecidableEq

def Op.stop (b : ℕ) : Op → ℕ
  | .erase off => off + b
  | .write off data => off + data.length

def Op.apply (b : ℕ) (cells : ℕ → UInt8) : Op → ℕ → UInt8
  | .erase off => fun x => if off ≤ x ∧ x < off + b then 0xff else cells x
  | .write off data => fun x =>
      if off ≤ x then (data[x - off]?).elim (cells x) (cells x &&& ·) else cells x

/-- The blocks that are erased, by their offsets. -/
def erasures (ops : List Op) : List ℕ :=
  ops.filterMap fun
    | .erase off => some off
    | .write _ _ => none

/-- The block of every byte that is written is erased before, among `done` or by an operation ahead of the write. -/
def ErasedFirst (b : ℕ) : List ℕ → List Op → Prop
  | _, [] => True
  | done, .erase off :: ops => ErasedFirst b (off :: done) ops
  | done, .write off data :: ops =>
      (∀ x, off ≤ x → x < off + data.length → x / b * b ∈ done) ∧ ErasedFirst b done ops

@[simp] theorem erasures_append (ops ops' : List Op) : erasures (ops ++ ops') = erasures ops ++ erasures ops' :=
  List.filterMap_append

variable {b : ℕ}

theorem ErasedFirst.more {done done' : List ℕ} {ops : List Op} (h : ErasedFirst b done ops)
    (hdone : ∀ off ∈ done, off ∈ done') : ErasedFirst b done' ops := by
  induction ops generalizing done done' with
  | nil => trivial
  | cons op ops ih =>
    cases op with
    | erase off =>
      apply ih h
      intro o ho
      rcases List.mem_cons.mp ho with rfl | ho
      · exact List.mem_cons_self
      · exact List.mem_cons_of_mem _ (hdone o ho)
    | write off data =>
      refine ⟨fun x hx hx' => hdone _ (h.1 x hx hx'), ih h.2 hdone⟩

theorem ErasedFirst.append {done : List ℕ} {ops ops' : List Op} (h : ErasedFirst b done ops)
    (h' : ErasedFirst b (erasures ops ++ done) ops') : ErasedFirst b done (ops ++ ops') := by
  induction ops generalizing done with
  | nil => exact h'
  | cons op ops ih =>
    cases op with
    | erase off =>
      apply ih h
      apply h'.more
      intro o ho
      simp only [erasures, List.filterMap_cons, List.cons_append, List.mem_cons, List.mem_append] at ho ⊢
      tauto
    | write off data => exact ⟨h.1, ih h.2 h'⟩

theorem count_erase (ops : List Op) (off : ℕ) : ops.count (.erase off) = (erasures ops).count off := by
  induction ops with
  | nil => rfl
  | cons op ops ih =>
    cases op with
    | erase o => simp [erasures, List.count_cons, ih]
    | write o data => simp [erasures, ih]

/-- The block of a written byte is among the erased ones. -/
theorem ErasedFirst.mem_erasures {done : List ℕ} {ops : List Op} (h : ErasedFirst b done ops) {off x : ℕ}
    {data : List UInt8} (hmem : Op.write off data ∈ ops) (hx : off ≤ x) (hx' : x < off + data.length) :
    x / b * b ∈ done ∨ x / b * b ∈ erasures ops := by
  induction ops generalizing done with
  | nil => cases hmem
  | cons op ops ih =>
    cases op with
    | erase o =>
      have hrest : Op.write off data ∈ ops := by simpa using hmem
      rcases ih h hrest with hdone | hlater
      · rcases List.mem_cons.mp hdone with heq | hdone
        · right
          simp [erasures, heq]
        · exact Or.inl hdone
      · right
        simp only [erasures, List.filterMap_cons, List.mem_cons] at hlater ⊢
        exact Or.inr hlater
    | write o d =>
      rcases List.mem_cons.mp hmem with heq | hrest
      · cases heq
        exact Or.inl (h.1 x hx hx')
      · exact ih h.2 hrest

/-- What was written is what is read back, on a block that was erased. -/
theorem write_erased (cells : ℕ → UInt8) {off x : ℕ} {data : List UInt8} (hlen : data.length ≤ b) (hx : off ≤ x)
    (hx' : x < off + data.length) :
    some (Op.apply b (Op.apply b cells (.erase off)) (.write off data) x) = data[x - off]? := by
  have hin : x - off < data.length := by omega
  have hones : ∀ v : UInt8, 0xff &&& v = v := fun _ => UInt8.neg_one_and
  simp only [Op.apply, if_pos hx, if_pos (show off ≤ x ∧ x < off + b by omega), List.getElem?_eq_getElem hin,
    Option.elim_some, hones]

theorem apply_outside (cells : ℕ → UInt8) (op : Op) {x : ℕ} (hx : op.stop b ≤ x) : op.apply b cells x = cells x := by
  cases op with
  | erase off =>
    rw [Op.stop] at hx
    exact if_neg (by omega)
  | write off data =>
    rw [Op.stop] at hx
    simp only [Op.apply, List.getElem?_eq_none (show data.length ≤ x - off by omega), Option.elim_none, ite_self]

theorem write_before (cells : ℕ → UInt8) {off x : ℕ} {data : List UInt8} (hx : x < off) :
    Op.apply b cells (.write off data) x = cells x := if_neg (by omega)

theorem erase_before (cells : ℕ → UInt8) {off x : ℕ} (hx : x < off) : Op.apply b cells (.erase off) x = cells x :=
  if_neg (by omega)

end Neufbox.Flash
