import Neufbox.Library.CString
import Neufbox.Library.Decimal

/-! # Arguments of the firmware tools

`mkmylofw`, `mkzynfw` and `mkcsysimg` share the code that takes option arguments apart: fields between colons, and
numbers in the notation of C. -/
namespace Neufbox.FirmwareUtils
open Neufbox.CString Neufbox.Decimal
set_option autoImplicit false
set_option maxHeartbeats 250000
set_option maxRecDepth 120000

/-! ## Numbers -/

/-- The value of a digit; 36 is not a digit in any base. -/
def digitOf (b : UInt8) : ℕ :=
  if 48 ≤ b ∧ b ≤ 57 then b.toNat - 48
  else if 97 ≤ b ∧ b ≤ 122 then b.toNat - 87
  else if 65 ≤ b ∧ b ≤ 90 then b.toNat - 55
  else 36

def digitsOf (base : ℕ) (bs : List UInt8) : List UInt8 := bs.takeWhile fun b => digitOf b < base

/-- The base a number is written in, and the number without its `0x`. -/
def numberBase (bs : List UInt8) : ℕ × List UInt8 :=
  if bs.head? = some 48 then
    if (bs.tail.head? = some 120 ∨ bs.tail.head? = some 88) ∧ digitsOf 16 bs.tail.tail ≠ [] then (16, bs.tail.tail)
    else (8, bs)
  else (10, bs)

/-- `strtoul` with base 0 for an `unsigned long` of 64 bits, and what is left behind the number; `none` when
there is no number or `errno` is set. -/
def strtoul (arg : List UInt8) : Option (ℕ × List UInt8) :=
  let bs := arg.dropWhile isSpace
  let negative := bs.head? = some 45
  let bs := if bs.head? = some 45 ∨ bs.head? = some 43 then bs.tail else bs
  let (base, bs) := numberBase bs
  let digits := digitsOf base bs
  let value := digits.foldl (fun v b => base * v + digitOf b) 0
  if digits = [] ∨ 2 ^ 64 ≤ value then none
  else some (if negative then (2 ^ 64 - value) % 2 ^ 64 else value, bs.drop digits.length)

/-- The value is cut to 32 bits. -/
def str2u32 (arg : List UInt8) : Option (BitVec 32) :=
  match strtoul arg with
  | some (value, []) => some (BitVec.ofNat 32 value)
  | _ => none

def str2u16 (arg : List UInt8) : Option (BitVec 16) := do
  let t ← str2u32 arg
  if 0x10000 ≤ t.toNat then none else pure (t.setWidth 16)

def str2u8 (arg : List UInt8) : Option UInt8 := do
  let t ← str2u32 arg
  if 0x100 ≤ t.toNat then none else pure (UInt8.ofNat t.toNat)

/-! ## Names -/

def tolower (b : UInt8) : UInt8 := if 65 ≤ b ∧ b ≤ 90 then b + 32 else b

/-- `strcasecmp`, where it says that two texts are the same. -/
def strcasecmp (s t : CStr) : Prop := s.bytes.map tolower = t.bytes.map tolower

instance (s t : CStr) : Decidable (strcasecmp s t) := by
  unfold strcasecmp
  infer_instance

/-! ## Fields -/

def maxArgCount : ℕ := 32

def maxArgLen : ℕ := 1024

/-- The next field and what follows its colon. -/
def strsep (bs : List UInt8) : List UInt8 × Option (List UInt8) :=
  (bs.takeWhile (· ≠ 58), if 58 ∈ bs then some (bs.dropWhile (· ≠ 58)).tail else none)

def tokens : ℕ → Option (List UInt8) → List (List UInt8)
  | 0, _ => []
  | _ + 1, none => []
  | n + 1, some bs => (strsep bs).1 :: tokens n (strsep bs).2

/-- `parse_arg`: the fields of an argument. -/
def parseArg (arg : CStr) : List (List UInt8) :=
  if arg.bytes = [] then [] else tokens maxArgCount (some (arg.bytes.take (maxArgLen - 1)))

/-- A field; one that is not there reads as an empty one. -/
def argAt (argv : List (List UInt8)) (i : ℕ) : List UInt8 := argv.getD i []

def isEmptyArg (argv : List (List UInt8)) (i : ℕ) : Prop := argAt argv i = []

instance (argv : List (List UInt8)) (i : ℕ) : Decidable (isEmptyArg argv i) := by
  unfold isEmptyArg
  infer_instance

/-- A field that has to be there and to be a number. -/
def numberArg (argv : List (List UInt8)) (i : ℕ) : Option (BitVec 32) :=
  if isEmptyArg argv i then none else str2u32 (argAt argv i)

/-- A field that may be left empty. -/
def numberArgOr (argv : List (List UInt8)) (i : ℕ) (otherwise : BitVec 32) : Option (BitVec 32) :=
  if isEmptyArg argv i then some otherwise else str2u32 (argAt argv i)

def requiredArg (arg : CStr) : Option Unit := if arg.bytes.head? = some 45 then none else some ()

theorem tokens_nulFree (n : ℕ) (bs : List UInt8) (hbs : (0 : UInt8) ∉ bs) : ∀ t ∈ tokens n (some bs), (0 : UInt8) ∉ t := by
  induction n generalizing bs with
  | zero => simp [tokens]
  | succ n ih =>
    intro t ht
    rcases List.mem_cons.mp ht with rfl | ht
    · exact fun h => hbs ((List.takeWhile_sublist _).subset h)
    · unfold strsep at ht
      by_cases hcolon : 58 ∈ bs
      · rw [if_pos hcolon] at ht
        exact ih _ (fun h => hbs ((List.dropWhile_sublist _).subset (List.mem_of_mem_tail h))) t ht
      · rw [if_neg hcolon] at ht
        cases n <;> simp [tokens] at ht

theorem argAt_nulFree (arg : CStr) (i : ℕ) : (0 : UInt8) ∉ argAt (parseArg arg) i := by
  rw [argAt, List.getD_eq_getElem?_getD]
  cases hget : (parseArg arg)[i]? with
  | none => simp
  | some t =>
    have hmem := List.mem_of_getElem? hget
    rw [parseArg] at hmem
    split at hmem
    · simp at hmem
    · exact tokens_nulFree _ _ (fun h => arg.nulFree (List.mem_of_mem_take h)) t hmem

end Neufbox.FirmwareUtils
