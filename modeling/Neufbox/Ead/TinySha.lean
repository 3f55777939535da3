import Mathlib.Data.ZMod.Basic
import Neufbox.Ead.Sha

/-! # The hash of the password protocol

`package/ead/src/tinysrp/t_sha.c`. The block is expanded in place in sixteen words, the five registers
keep their names and change places in the calls of the step macros, and the input comes in pieces
through a buffer of 64 bytes. It computes the secure hash of what came in. `SHA1HANDSOFF` is defined,
so `SHA1Transform` works on a copy of the block. -/
namespace Neufbox.Ead.TinySha
open ByteWords Sha1 Absorb
set_option autoImplicit false
set_option maxHeartbeats 250000
set_option maxRecDepth 120000

/-! ## One block -/

def rol (value : Word) (bits : ℕ) : Word := (value <<< bits) ||| (value >>> (32 - bits))

/-- The words of the block as the host loads them. -/
def hostWord (bigEndian : Bool) (buffer : List UInt8) (i : ℕ) : Word :=
  let b (j : ℕ) : Byte := (buffer.getD (4 * i + j) 0).toBitVec
  if bigEndian then word (b 0) (b 1) (b 2) (b 3) else word (b 3) (b 2) (b 1) (b 0)

def blk0 (bigEndian : Bool) (l : ℕ → Word) (i : ℕ) : Word :=
  if bigEndian then l i else (rol (l i) 24 &&& 0xff00ff00#32) ||| (rol (l i) 8 &&& 0x00ff00ff#32)

def blk (l : ℕ → Word) (i : ℕ) : Word :=
  rol (l ((i + 13) % 16) ^^^ l ((i + 8) % 16) ^^^ l ((i + 2) % 16) ^^^ l (i % 16)) 1

/-- The words of the block and the variables `a` to `e`. -/
structure Work where
  l : ℕ → Word
  vars : ZMod 5 → Word

/-- A call of one of the macros `R0` to `R4`. Call `i` names the variables from the one `i` places before
`a` on, `v` first, and `blk0` or `blk` leaves its word in the block. -/
def callR (f : Word → Word → Word → Word) (k : Word) (word : (ℕ → Word) → ℕ → Word) (s : Work) (i : ℕ) : Work :=
  let at' (j : ZMod 5) : Word := s.vars (j - i)
  let x := word s.l i
  { l := Function.update s.l (i % 16) x
    vars := Function.update (Function.update s.vars (4 - i) (at' 4 + (f (at' 1) (at' 2) (at' 3) + x + k + rol (at' 0) 5)))
      (1 - i) (rol (at' 1) 30) }

def r0 (bigEndian : Bool) : Work → ℕ → Work := callR (fun w x y => (w &&& (x ^^^ y)) ^^^ y) 0x5a827999#32 (blk0 bigEndian)
def r1 : Work → ℕ → Work := callR (fun w x y => (w &&& (x ^^^ y)) ^^^ y) 0x5a827999#32 blk
def r2 : Work → ℕ → Work := callR (fun w x y => w ^^^ x ^^^ y) 0x6ed9eba1#32 blk
def r3 : Work → ℕ → Work := callR (fun w x y => ((w ||| x) &&& y) ||| (w &&& x)) 0x8f1bbcdc#32 blk
def r4 : Work → ℕ → Work := callR (fun w x y => w ^^^ x ^^^ y) 0xca62c1d6#32 blk

def regs (r : Chain) : ZMod 5 → Word := ![r.a, r.b, r.c, r.d, r.e]

def sha1Transform (bigEndian : Bool) (state : Chain) (buffer : List UInt8) : Chain :=
  let s : Work := ⟨hostWord bigEndian buffer, regs state⟩
  let s := (List.range' 0 16).foldl (r0 bigEndian) s
  let s := (List.range' 16 4).foldl r1 s
  let s := (List.range' 20 20).foldl r2 s
  let s := (List.range' 40 20).foldl r3 s
  let s := (List.range' 60 20).foldl r4 s
  ⟨state.a + s.vars 0, state.b + s.vars 1, state.c + s.vars 2, state.d + s.vars 3, state.e + s.vars 4⟩

/-! ## The expansion in place -/

theorem blk0_eq {bigEndian : Bool} {l : ℕ → Word} {buffer : List UInt8} {i : ℕ}
    (h : l i = hostWord bigEndian buffer i) : blk0 bigEndian l i = blockWord buffer i := by
  cases bigEndian with
  | true => rw [blk0, if_pos rfl, h]; rfl
  | false =>
    have hones : ∀ b : Byte, b &&& 255#8 = b := fun b => by
      rw [show 255#8 = BitVec.allOnes 8 from rfl, BitVec.and_allOnes]
    rw [blk0, if_neg Bool.false_ne_true, h, hostWord, if_neg Bool.false_ne_true, rol, rol, shiftLeft_word_three,
      shiftRight_word, shiftLeft_word, shiftRight_word_three, or_word, or_word,
      show 0xff00ff00#32 = word 0xff 0 0xff 0 from rfl, show 0x00ff00ff#32 = word 0 0xff 0 0xff from rfl,
      and_word, and_word, or_word, blockWord]
    simp [hones]

/-- The block before call `t`: words `t - 16` to `t - 1` of the schedule, and what was loaded where there
was no call yet. -/
structure Expanded (bigEndian : Bool) (buffer : List UInt8) (t : ℕ) (l : ℕ → Word) : Prop where
  done : ∀ s, s < t → t ≤ s + 16 → l (s % 16) = schedule buffer s
  loaded : ∀ s, t ≤ s → s < 16 → l s = hostWord bigEndian buffer s

variable {bigEndian : Bool} {buffer : List UInt8}

theorem Expanded.start : Expanded bigEndian buffer 0 (hostWord bigEndian buffer) :=
  ⟨fun _ hs => absurd hs (Nat.not_lt_zero _), fun _ _ _ => rfl⟩

/-- The word of a call takes the place of the one sixteen calls before. -/
theorem Expanded.next {t : ℕ} {l : ℕ → Word} (h : Expanded bigEndian buffer t l) :
    Expanded bigEndian buffer (t + 1) (Function.update l (t % 16) (schedule buffer t)) where
  done s hs hs' := by
    by_cases ht : s = t
    · rw [ht, Function.update_self]
    · rw [Function.update_of_ne (by omega), h.done s (by omega) (by omega)]
  loaded s hs hs' := by
    rw [Function.update_of_ne (by omega), h.loaded s (by omega) hs']

theorem Expanded.blk0 {t : ℕ} {l : ℕ → Word} (h : Expanded bigEndian buffer t l) (ht : t < 16) :
    blk0 bigEndian l t = schedule buffer t := by
  rw [blk0_eq (h.loaded t le_rfl ht), schedule_block ht]

theorem Expanded.blk {t : ℕ} {l : ℕ → Word} (h : Expanded bigEndian buffer t l) (ht : 16 ≤ t) :
    blk l t = schedule buffer t := by
  obtain ⟨s, rfl⟩ : ∃ s, t = s + 16 := ⟨t - 16, by omega⟩
  have e13 := h.done (s + 13) (by omega) (by omega)
  have e8 := h.done (s + 8) (by omega) (by omega)
  have e2 := h.done (s + 2) (by omega) (by omega)
  have e0 := h.done s (by omega) (by omega)
  rw [TinySha.blk, show (s + 16 + 13) % 16 = (s + 13) % 16 from by omega,
    show (s + 16 + 8) % 16 = (s + 8) % 16 from by omega, show (s + 16 + 2) % 16 = (s + 2) % 16 from by omega,
    show (s + 16) % 16 = s % 16 from by omega, e13, e8, e2, e0, schedule_next]
  rfl

/-! ## The registers change places -/

/-- The variables before call `t` hold the registers `a` to `e` of step `t`, from `t` places back on. -/
def Rotated (t : ℕ) (vars : ZMod 5 → Word) (r : Chain) : Prop := ∀ j : ZMod 5, vars (j - t) = regs r j

theorem callR_rotated {f : Word → Word → Word → Word} {k : Word} {g : (ℕ → Word) → ℕ → Word} {s : Work} {t : ℕ}
    {r : Chain} (hr : Rotated t s.vars r) (hf : ∀ x y z, f x y z = func t x y z) (hk : k = const t)
    (hw : g s.l t = schedule buffer t) :
    Rotated (t + 1) (callR f k g s t).vars (step (schedule buffer) r t) := by
  have h0 := hr 0
  have h1 := hr 1
  have h2 := hr 2
  have h3 := hr 3
  have h4 := hr 4
  have hne : (4 : ZMod 5) ≠ 1 := by decide
  intro j
  have hj : j - ((t + 1 : ℕ) : ZMod 5) = (j + 4) - t := by
    have h5 : (5 : ZMod 5) = 0 := rfl
    push_cast
    linear_combination -h5
  rw [hj]
  simp only [callR, hw, hf, hk, h0, h1, h2, h3, h4, Function.update_apply, sub_left_inj]
  fin_cases j
  · rw [if_neg (by decide), if_pos (by decide)]
    change r.e + (func t r.b r.c r.d + schedule buffer t + const t + r.a.rotateLeft 5) =
      r.a.rotateLeft 5 + func t r.b r.c r.d + r.e + const t + schedule buffer t
    ac_rfl
  · rw [if_neg (by decide), if_neg (by decide)]
    exact h0
  · rw [if_pos (by decide)]
    rfl
  · rw [if_neg (by decide), if_neg (by decide)]
    exact h2
  · rw [if_neg (by decide), if_neg (by decide)]
    exact h3

/-- Block and variables before call `t`, with the registers of step `t`. -/
structure AtStep (bigEndian : Bool) (buffer : List UInt8) (t : ℕ) (s : Work) (r : Chain) : Prop where
  expanded : Expanded bigEndian buffer t s.l
  rotated : Rotated t s.vars r

/-- A run of calls of one macro is a run of steps. -/
theorem AtStep.calls {f : Word → Word → Word → Word} {k : Word} {g : (ℕ → Word) → ℕ → Word} {t : ℕ} {s : Work}
    {r : Chain} (h : AtStep bigEndian buffer t s r) (n : ℕ)
    (hf : ∀ i, t ≤ i → i < t + n → ∀ x y z, f x y z = func i x y z) (hk : ∀ i, t ≤ i → i < t + n → k = const i)
    (hw : ∀ i, t ≤ i → i < t + n → ∀ l, Expanded bigEndian buffer i l → g l i = schedule buffer i) :
    AtStep bigEndian buffer (t + n) ((List.range' t n).foldl (callR f k g) s)
      ((List.range' t n).foldl (step (schedule buffer)) r) := by
  induction n with
  | zero => exact h
  | succ n ih =>
    have hn := ih (fun i hi hi' => hf i hi (by omega)) (fun i hi hi' => hk i hi (by omega))
      fun i hi hi' => hw i hi (by omega)
    have hnext := hw (t + n) (by omega) (by omega) _ hn.expanded
    rw [List.range'_concat, Nat.one_mul, List.foldl_append, List.foldl_append, List.foldl_cons, List.foldl_cons,
      List.foldl_nil, List.foldl_nil]
    refine ⟨?_, callR_rotated hn.rotated (hf (t + n) (Nat.le_add_right t n) (by omega))
      (hk (t + n) (Nat.le_add_right t n) (by omega)) hnext⟩
    rw [callR, hnext]
    exact hn.expanded.next

/-- The step macros on a block are the compression of the secure hash. -/
theorem sha1Transform_eq (bigEndian : Bool) (state : Chain) (buffer : List UInt8) :
    sha1Transform bigEndian state buffer = compress state buffer := by
  have start : AtStep bigEndian buffer 0 ⟨hostWord bigEndian buffer, regs state⟩ state :=
    ⟨.start, fun j => by rw [Nat.cast_zero, sub_zero]⟩
  have h0 := start.calls 16 (f := fun w x y => (w &&& (x ^^^ y)) ^^^ y) (k := 0x5a827999#32)
    (g := blk0 bigEndian)
    (fun i _ hi x y z => by
      rw [func_first (by omega), ← select_eq_ch]
      ac_rfl)
    (fun i _ hi => (const_first (by omega)).symm) fun i _ hi l hl => hl.blk0 (by omega)
  have h1 := h0.calls 4 (f := fun w x y => (w &&& (x ^^^ y)) ^^^ y) (k := 0x5a827999#32) (g := blk)
    (fun i _ hi x y z => by
      rw [func_first (by omega), ← select_eq_ch]
      ac_rfl)
    (fun i _ hi => (const_first (by omega)).symm) fun i hi _ l hl => hl.blk (by omega)
  have h2 := h1.calls 20 (f := fun w x y => w ^^^ x ^^^ y) (k := 0x6ed9eba1#32) (g := blk)
    (fun i hi hi' x y z => by rw [func_second (by omega) (by omega)]; rfl)
    (fun i hi hi' => (const_second (by omega) (by omega)).symm) fun i hi _ l hl => hl.blk (by omega)
  have h3 := h2.calls 20 (f := fun w x y => ((w ||| x) &&& y) ||| (w &&& x)) (k := 0x8f1bbcdc#32) (g := blk)
    (fun i hi hi' x y z => by rw [func_third (by omega) (by omega)]; exact or_eq_maj x y z)
    (fun i hi hi' => (const_third (by omega) (by omega)).symm) fun i hi _ l hl => hl.blk (by omega)
  have h4 := h3.calls 20 (f := fun w x y => w ^^^ x ^^^ y) (k := 0xca62c1d6#32) (g := blk)
    (fun i hi hi' x y z => by rw [func_fourth (by omega)]; rfl)
    (fun i hi hi' => (const_fourth (by omega)).symm) fun i hi _ l hl => hl.blk (by omega)
  have hvars (j : ZMod 5) := h4.rotated j
  have h80 : ((80 : ℕ) : ZMod 5) = 0 := rfl
  simp only [Nat.zero_add, Nat.reduceAdd, h80, sub_zero] at hvars
  have hsteps : (List.range 80).foldl (step (schedule buffer)) state =
      (List.range' 60 20).foldl (step (schedule buffer)) ((List.range' 40 20).foldl (step (schedule buffer))
        ((List.range' 20 20).foldl (step (schedule buffer)) ((List.range' 16 4).foldl (step (schedule buffer))
          ((List.range' 0 16).foldl (step (schedule buffer)) state)))) := by
    rw [← List.foldl_append, ← List.foldl_append, ← List.foldl_append, ← List.foldl_append, List.range_eq_range']
    rfl
  rw [compress, hsteps, sha1Transform]
  simp only [r0, r1, r2, r3, r4]
  rw [hvars 0, hvars 1, hvars 2, hvars 3, hvars 4]
  rfl

/-- Both programs chain a block the same way, that of the standard. -/
theorem transforms_agree (bigEndian : Bool) (digest : Chain) (data : List UInt8) (w : ℕ → Word) :
    sha1Transform bigEndian digest data = Sha.shaTransform digest data w ∧
      Sha.shaTransform digest data w = compress digest data :=
  ⟨(sha1Transform_eq bigEndian digest data).trans (Sha.shaTransform_eq digest data w).symm,
    Sha.shaTransform_eq digest data w⟩

end Neufbox.Ead.TinySha
