import Neufbox.Nvram.RoundTrip

/-! # The bounds of the NVRAM parser

The scan of `_nvram_rehash` follows the strings of the data area and looks at nothing else: no length, no end of the
area. It ends at the first string without a `=`; when the area has no such string it runs out of the area, which is
the end of the mapping. -/
namespace Neufbox.Nvram
open CString
set_option autoImplicit false
set_option maxHeartbeats 250000
set_option maxRecDepth 120000

/-- The area has a terminated string that is no `name=value`; the empty one counts. -/
def HasBareString (mem : List UInt8) : Prop := ∃ s ∈ strings mem, equals ∉ s

instance (mem : List UInt8) : Decidable (HasBareString mem) :=
  inferInstanceAs (Decidable (∃ s ∈ strings mem, equals ∉ s))

theorem hasBareString_unterminated {mem : List UInt8} (h : (0 : UInt8) ∉ mem) : ¬ HasBareString mem := by
  simp [HasBareString, strings_unterminated h]

theorem hasBareString_bare {s : CStr} (h : equals ∉ s.bytes) (rest : List UInt8) :
    HasBareString (s.bytes ++ 0 :: rest) := by
  rw [HasBareString, strings_terminated s.nulFree]
  exact ⟨s.bytes, List.mem_cons_self, h⟩

/-- A record is passed over. -/
theorem hasBareString_record (name value : CStr) (rest : List UInt8) :
    HasBareString (name.bytes ++ equals :: (value.bytes ++ 0 :: rest)) ↔ HasBareString rest := by
  have hnul : (0 : UInt8) ∉ name.bytes ++ equals :: value.bytes := by
    simp [name.nulFree, value.nulFree, equals]
  have hsplit : name.bytes ++ equals :: (value.bytes ++ 0 :: rest) =
      (name.bytes ++ equals :: value.bytes) ++ 0 :: rest := by simp
  rw [hsplit, HasBareString, strings_terminated hnul]
  simp [HasBareString]

/-- The scan stays inside of the memory exactly when it meets a string without a `=`. -/
theorem parseTuples_ne_none_iff (mem : List UInt8) : parseTuples mem ≠ none ↔ HasBareString mem := by
  induction mem using parseTuples.induct with
  | case1 =>
    rw [parseTuples]
    simpa using hasBareString_unterminated (List.not_mem_nil)
  | case2 bs =>
    rw [parseTuples, if_pos rfl]
    have hempty := @hasBareString_bare .empty (by simp [CStr.empty]) bs
    rw [CStr.empty, List.nil_append] at hempty
    simpa using hempty
  | case3 b bs hb hfault =>
    simp only [parseTuples_cons bs hb, hfault]
    simpa using hasBareString_unterminated (strchr_eq_fault hfault)
  | case4 b bs hb hmiss =>
    obtain ⟨s, rest, hmem, hnot⟩ := strchr_eq_missing hmiss
    simp only [parseTuples_cons bs hb, hmiss]
    rw [hmem]
    simpa using hasBareString_bare hnot rest
  | case5 b bs hb name rest hname hval =>
    have hmem := (strchr_eq_found hname).1
    have hnul : (0 : UInt8) ∉ b :: bs := by
      rw [hmem]
      simp [name.nulFree, stringAt_eq_none hval, equals]
    simp only [parseTuples_cons bs hb, hname, hval]
    simpa using hasBareString_unterminated hnul
  | case6 b bs hb name rest hname value rest' hval ih =>
    simp only [parseTuples_cons bs hb, hname, hval]
    rw [(strchr_eq_found hname).1, stringAt_eq_some hval, hasBareString_record, ← ih, ne_eq, Option.map_eq_none_iff]

/-- Opening a partition with a valid magic number stays inside of the area exactly when the area has a terminated
string without a `=`. -/
theorem nvram_open_in_bounds_iff (file : NvramMap) :
    nvramOpen file ≠ none ↔ (file.header.magic = nvramMagic → HasBareString file.data.bytes) := by
  have hrehash : nvramRehash (clearLead file) ≠ none ↔ HasBareString file.data.bytes := by
    rw [nvramRehash, ne_eq, Option.map_eq_none_iff]
    exact parseTuples_ne_none_iff file.data.bytes
  have hmagic : (clearLead file).header.magic = file.header.magic := rfl
  simp only [nvramOpen, hmagic]
  split
  · next h => simp only [h, true_implies, ← hrehash, ne_eq, Option.map_eq_none_iff]
  · next h => simp [h]

theorem erasedArea_aligned : ([] : List UInt8).length % 4 = 0 := by
  simp

/-- A partition that was erased and then given a header. -/
def erasedArea : NvramMap where
  lead := []
  aligned := erasedArea_aligned
  header := ⟨nvramMagic, headerSize, 0, 0, 0⟩
  data := .erased

theorem nvram_open_leaves_erased_area :
    erasedArea.header.magic = nvramMagic ∧ nvramOpen erasedArea = none := by
  refine ⟨rfl, ?_⟩
  have hnul : (0 : UInt8) ∉ erasedArea.data.bytes := by
    intro h
    exact absurd (List.eq_of_mem_replicate h) (by decide)
  have hparse : parseTuples erasedArea.data.bytes = none := by
    by_contra h
    exact hasBareString_unterminated hnul ((parseTuples_ne_none_iff _).mp h)
  have hrehash : nvramRehash (clearLead erasedArea) = none := by
    rw [nvramRehash, Option.map_eq_none_iff]
    exact hparse
  have hmagic : (clearLead erasedArea).header.magic = nvramMagic := rfl
  simp only [nvramOpen, hmagic, if_true, hrehash, Option.map_none]

end Neufbox.Nvram
