import Mathlib.Tactic

/-! NUL-terminated strings. A `CStr` is the text of a C string: bytes without a NUL. Memory is the
list of bytes from a pointer to the end of the readable area; a scan that runs off the end is a
`fault`, not a result. -/
namespace Neufbox.CString
set_option autoImplicit false
set_option maxHeartbeats 250000

structure CStr where
  bytes : List UInt8
  nulFree : (0 : UInt8) ∉ bytes
  deriving DecidableEq

namespace CStr

@[ext] theorem ext {s t : CStr} (h : s.bytes = t.bytes) : s = t := by
  cases s; cases t; cases h; rfl

def strlen (s : CStr) : ℕ := s.bytes.length

def lit (s : String) : CStr where
  bytes := (s.toList.map fun c => UInt8.ofNat c.toNat).filter (· ≠ 0)
  nulFree := by simp

def empty : CStr := ⟨[], by simp⟩

def cons (b : UInt8) (hb : b ≠ 0) (s : CStr) : CStr where
  bytes := b :: s.bytes
  nulFree := by simp [s.nulFree, Ne.symm hb]

end CStr

/-- The string at a pointer and the memory behind its NUL; `none` when no NUL comes. -/
def stringAt : List UInt8 → Option (CStr × List UInt8)
  | [] => none
  | b :: mem =>
      if hb : b = 0 then some (.empty, mem)
      else (stringAt mem).map fun r => (r.1.cons b hb, r.2)

/-- The result of `strchr`: the text before the character and the memory behind it, no such
character before the NUL, or a scan past the end of the memory. -/
inductive Found where
  | found (before : CStr) (rest : List UInt8)
  | missing
  | fault

def strchr (c : UInt8) : List UInt8 → Found
  | [] => .fault
  | b :: mem =>
      if b = c then .found .empty mem
      else if hb : b = 0 then .missing
      else match strchr c mem with
        | .found before rest => .found (before.cons b hb) rest
        | .missing => .missing
        | .fault => .fault

theorem stringAt_terminated (s : CStr) (rest : List UInt8) :
    stringAt (s.bytes ++ 0 :: rest) = some (s, rest) := by
  obtain ⟨bytes, hnul⟩ := s
  induction bytes with
  | nil => simp [stringAt, CStr.empty]
  | cons b bytes ih =>
    have hb : b ≠ 0 := fun h => hnul (by simp [h])
    have hrest : (0 : UInt8) ∉ bytes := fun h => hnul (List.mem_cons_of_mem b h)
    have htail := ih hrest
    simp only at htail
    simp only [List.cons_append, stringAt, hb, dif_neg, not_false_eq_true, htail, Option.map_some]
    rfl

theorem stringAt_eq_some {mem rest : List UInt8} {s : CStr} (h : stringAt mem = some (s, rest)) :
    mem = s.bytes ++ 0 :: rest := by
  induction mem generalizing s rest with
  | nil => simp [stringAt] at h
  | cons b mem ih =>
    by_cases hb : b = 0
    · simp only [stringAt, hb, dif_pos, Option.some.injEq, Prod.mk.injEq] at h
      obtain ⟨rfl, rfl⟩ := h
      rw [hb]
      rfl
    · simp only [stringAt, hb, dif_neg, not_false_eq_true, Option.map_eq_some_iff, Prod.exists,
        Prod.mk.injEq] at h
      obtain ⟨s', rest', htail, rfl, rfl⟩ := h
      rw [ih htail]
      rfl

theorem strchr_before (c : UInt8) (s : CStr) (hc : c ∉ s.bytes) (rest : List UInt8) :
    strchr c (s.bytes ++ c :: rest) = .found s rest := by
  obtain ⟨bytes, hnul⟩ := s
  induction bytes with
  | nil => simp [strchr, CStr.empty]
  | cons b bytes ih =>
    have hb : b ≠ 0 := fun h => hnul (by simp [h])
    have hbc : b ≠ c := fun h => hc (by simp [h])
    have hrest : (0 : UInt8) ∉ bytes := fun h => hnul (List.mem_cons_of_mem b h)
    have htail := ih hrest (fun h => hc (List.mem_cons_of_mem b h))
    simp only at htail
    simp only [List.cons_append, strchr, hbc, if_false, hb, dif_neg, not_false_eq_true, htail]
    rfl

theorem strchr_eq_found {c : UInt8} {mem rest : List UInt8} {s : CStr}
    (h : strchr c mem = .found s rest) : mem = s.bytes ++ c :: rest ∧ c ∉ s.bytes := by
  induction mem generalizing s rest with
  | nil => simp [strchr] at h
  | cons b mem ih =>
    by_cases hbc : b = c
    · simp only [strchr, hbc, if_true, Found.found.injEq] at h
      obtain ⟨rfl, rfl⟩ := h
      rw [hbc]
      exact ⟨rfl, by simp [CStr.empty]⟩
    · by_cases hb : b = 0
      · rw [strchr, if_neg hbc, dif_pos hb] at h
        exact Found.noConfusion h
      · rw [strchr, if_neg hbc, dif_neg hb] at h
        cases htail : strchr c mem with
        | found before rest' =>
          rw [htail] at h
          obtain ⟨rfl, rfl⟩ := Found.found.inj h
          obtain ⟨hmem, hnot⟩ := ih htail
          rw [hmem]
          exact ⟨rfl, by simp [CStr.cons, hnot, Ne.symm hbc]⟩
        | missing => rw [htail] at h; exact Found.noConfusion h
        | fault => rw [htail] at h; exact Found.noConfusion h

theorem stringAt_eq_none {mem : List UInt8} (h : stringAt mem = none) : (0 : UInt8) ∉ mem := by
  induction mem with
  | nil => simp
  | cons b mem ih =>
    by_cases hb : b = 0
    · rw [stringAt, dif_pos hb] at h
      cases h
    · rw [stringAt, dif_neg hb, Option.map_eq_none_iff] at h
      simp [Ne.symm hb, ih h]

theorem strchr_eq_missing {c : UInt8} {mem : List UInt8} (h : strchr c mem = .missing) :
    ∃ (s : CStr) (rest : List UInt8), mem = s.bytes ++ 0 :: rest ∧ c ∉ s.bytes := by
  induction mem with
  | nil => cases h
  | cons b mem ih =>
    by_cases hbc : b = c
    · rw [strchr, if_pos hbc] at h
      cases h
    · by_cases hb : b = 0
      · exact ⟨.empty, mem, by rw [hb]; rfl, by simp [CStr.empty]⟩
      · rw [strchr, if_neg hbc, dif_neg hb] at h
        cases htail : strchr c mem with
        | found before rest => rw [htail] at h; cases h
        | fault => rw [htail] at h; cases h
        | missing =>
          obtain ⟨s, rest, hmem, hnot⟩ := ih htail
          refine ⟨s.cons b hb, rest, by rw [hmem]; rfl, ?_⟩
          simp [CStr.cons, hnot, Ne.symm hbc]

theorem strchr_eq_fault {c : UInt8} {mem : List UInt8} (h : strchr c mem = .fault) : (0 : UInt8) ∉ mem := by
  induction mem with
  | nil => simp
  | cons b mem ih =>
    by_cases hbc : b = c
    · rw [strchr, if_pos hbc] at h
      cases h
    · by_cases hb : b = 0
      · rw [strchr, if_neg hbc, dif_pos hb] at h
        cases h
      · rw [strchr, if_neg hbc, dif_neg hb] at h
        cases htail : strchr c mem with
        | found before rest => rw [htail] at h; cases h
        | missing => rw [htail] at h; cases h
        | fault => simp [Ne.symm hb, ih htail]

/-! ## The strings of a memory -/

/-- The NUL-terminated strings that follow each other in a memory; what comes behind the last NUL is none. -/
def strings (mem : List UInt8) : List (List UInt8) := (mem.splitOn 0).dropLast

theorem strings_terminated {s : List UInt8} (hs : (0 : UInt8) ∉ s) (rest : List UInt8) :
    strings (s ++ 0 :: rest) = s :: strings rest := by
  rw [strings, List.splitOn_append_cons_self_of_not_mem hs, List.dropLast_cons_of_ne_nil (List.splitOn_ne_nil _ _),
    strings]

theorem strings_unterminated {mem : List UInt8} (h : (0 : UInt8) ∉ mem) : strings mem = [] := by
  rw [strings, List.splitOn_eq_singleton h, List.dropLast_singleton]

end Neufbox.CString
