import Neufbox.Jffs2.Append
import Neufbox.Library.Accesses
import Neufbox.Library.Orbit

/-! # What parsing touches

`mtd_parse_jffs2data` takes every length from the block itself. The offsets of its nodes are an orbit: each offset
leads to the next by the node's length, rounded up, in 32 bits. -/
namespace Neufbox.Jffs2
open Accesses Orbit
set_option autoImplicit false
set_option maxHeartbeats 250000
set_option maxRecDepth 120000

section Scan
variable (c : Config) (mem : ℕ → UInt8) (dir : List UInt8)

/-! ## Reads -/

/-- How many bytes of a name `strncmp` looks at. -/
def nameReads : ℕ → ℕ → List UInt8 → ℕ
  | 0, _, _ => 0
  | _ + 1, _, [] => 1
  | n + 1, off, d :: ds => if mem off = d then nameReads n (off + 1) ds + 1 else 1

/-- The name that `strncmp` compares, of an entry with parent 1. -/
def comparedName (ofs : ℕ) : ℕ := nameReads mem (mem (ofs + 28)).toNat (ofs + 40) dir

def direntAccesses (ofs : ℕ) : List Access :=
  (if dir = [] then []
    else ⟨ofs + 12, 4⟩ ::
      if u32At c mem (ofs + 12) ≠ 1 then []
      else ⟨ofs + 28, 1⟩ :: blocks (ofs + 40) 1 (comparedName mem dir ofs) ++
        if strncmpEq mem (mem (ofs + 28)).toNat (ofs + 40) dir then [⟨ofs + 20, 4⟩] else []) ++
    [⟨ofs + 20, 4⟩, ⟨ofs + 16, 4⟩]

/-- One round of the loop. -/
def nodeAccesses (ofs : ℕ) : List Access :=
  ⟨ofs, 2⟩ ::
    if u16At c mem ofs ≠ magicBitmask then []
    else ⟨ofs + 4, 4⟩ :: ⟨ofs + 2, 2⟩ ::
      if u16At c mem (ofs + 2) = nodetypeDirent then direntAccesses c mem dir ofs else []

/-- The offset behind a node. -/
def nextNode (ofs : ℕ) : Option ℕ :=
  if ofs < c.erasesize ∧ u16At c mem ofs = magicBitmask then
    some ((ofs + padWord (u32At c mem (ofs + 4))) % 2 ^ 32)
  else none

/-- As many rounds of the loop as the fuel allows. -/
def parseAccesses : ℕ → ℕ → List Access
  | 0, _ => []
  | fuel + 1, ofs =>
      if ofs < c.erasesize then
        nodeAccesses c mem dir ofs ++ ((nextNode c mem ofs).toList.flatMap (parseAccesses fuel))
      else []

/-- The loop ends, whatever numbers were found before, and however long it runs it reads only inside of the block. -/
def ParseSafe : Prop :=
  (∀ f, ∃ fuel f', mtdParseJffs2data c mem dir fuel 0 f = some f') ∧
    ∀ fuel, Inside c.erasesize (parseAccesses c mem dir fuel 0)

/-! ## Blocks that can be parsed -/

/-- What is read of a node lies inside of the block: its magic, the rest of the header, the numbers of an entry,
and the compared part of a name. -/
structure NodeFits (ofs : ℕ) : Prop where
  magic : ofs + 2 ≤ c.erasesize
  header : u16At c mem ofs = magicBitmask → ofs + 8 ≤ c.erasesize
  entry : u16At c mem ofs = magicBitmask → u16At c mem (ofs + 2) = nodetypeDirent → ofs + 24 ≤ c.erasesize
  name : u16At c mem ofs = magicBitmask → u16At c mem (ofs + 2) = nodetypeDirent → dir ≠ [] →
    u32At c mem (ofs + 12) = 1 → ofs + 29 ≤ c.erasesize ∧
      (0 < comparedName mem dir ofs → ofs + 40 + comparedName mem dir ofs ≤ c.erasesize)

/-- Following the lengths from the start of the block comes to nodes that fit and never to the same node again. -/
structure NodesFit : Prop where
  fits : ∀ ofs, Reached (nextNode c mem) 0 ofs → ofs < c.erasesize → NodeFits c mem dir ofs
  once : ∀ ofs, Reached (nextNode c mem) 0 ofs → ¬ Returns (nextNode c mem) ofs

variable {c mem dir}

theorem direntAccesses_inside_iff {ofs : ℕ} : Inside c.erasesize (direntAccesses c mem dir ofs) ↔
    ofs + 24 ≤ c.erasesize ∧ (dir ≠ [] → u32At c mem (ofs + 12) = 1 → ofs + 29 ≤ c.erasesize ∧
      (0 < comparedName mem dir ofs → ofs + 40 + comparedName mem dir ofs ≤ c.erasesize)) := by
  have hname : Inside c.erasesize (blocks (ofs + 40) 1 (comparedName mem dir ofs)) ↔
      (0 < comparedName mem dir ofs → ofs + 40 + comparedName mem dir ofs ≤ c.erasesize) := by
    rcases Nat.eq_zero_or_pos (comparedName mem dir ofs) with hzero | hpos
    · simp [hzero, blocks]
    · by_cases hofs : ofs + 40 ≤ c.erasesize
      · rw [inside_blocks _ _ hofs]
        omega
      · constructor
        · intro h
          have hfirst := h ⟨ofs + 40, 1⟩ (List.mem_map.mpr ⟨0, List.mem_range.mpr hpos, rfl⟩)
          simp only at hfirst
          omega
        · intro h
          have hle := h hpos
          omega
  rw [direntAccesses, inside_append]
  simp only [inside_cons, inside_nil, and_true]
  by_cases hdir : dir = []
  · simp only [hdir, if_true, ne_eq, not_true_eq_false, false_implies, inside_nil, true_and, and_true]
    omega
  · rw [if_neg hdir, inside_cons]
    by_cases hroot : u32At c mem (ofs + 12) = 1
    · rw [if_neg (not_not_intro hroot), List.cons_append, inside_cons, inside_append, hname]
      have hino : Inside c.erasesize
          (if strncmpEq mem (mem (ofs + 28)).toNat (ofs + 40) dir then [⟨ofs + 20, 4⟩] else []) ∨
          ¬ ofs + 24 ≤ c.erasesize := by
        split
        · simp only [inside_cons, inside_nil, and_true]
          omega
        · simp
      simp only [ne_eq, hdir, not_false_eq_true, hroot, true_implies]
      constructor
      · rintro ⟨⟨hpino, hsize, hfit, -⟩, hend, -⟩
        exact ⟨by omega, by omega, hfit⟩
      · rintro ⟨hend, hsize, hfit⟩
        exact ⟨⟨by omega, by omega, hfit, hino.resolve_right (not_not_intro hend)⟩, by omega, by omega⟩
    · simp only [if_pos (show u32At c mem (ofs + 12) ≠ 1 from hroot), hroot, inside_nil, false_implies, implies_true,
        and_true]
      omega

theorem nodeAccesses_inside_iff {ofs : ℕ} :
    Inside c.erasesize (nodeAccesses c mem dir ofs) ↔ NodeFits c mem dir ofs := by
  simp only [nodeAccesses, inside_cons]
  by_cases hmagic : u16At c mem ofs = magicBitmask
  · simp only [if_neg (not_not_intro hmagic), inside_cons]
    by_cases htype : u16At c mem (ofs + 2) = nodetypeDirent
    · rw [if_pos htype, direntAccesses_inside_iff]
      constructor
      · rintro ⟨hm, hlen, -, hentry, hname⟩
        exact ⟨hm, fun _ => by omega, fun _ _ => hentry, fun _ _ => hname⟩
      · rintro ⟨hm, hlen, hentry, hname⟩
        have hlen := hlen hmagic
        exact ⟨hm, by omega, by omega, hentry hmagic htype, hname hmagic htype⟩
    · rw [if_neg htype]
      constructor
      · rintro ⟨hm, hlen, -, -⟩
        exact ⟨hm, fun _ => by omega, fun _ h => absurd h htype, fun _ h => absurd h htype⟩
      · rintro ⟨hm, hlen, -, -⟩
        have hlen := hlen hmagic
        exact ⟨hm, by omega, by omega, inside_nil⟩
  · rw [if_pos hmagic]
    constructor
    · rintro ⟨hm, -⟩
      exact ⟨hm, fun h => absurd h hmagic, fun h => absurd h hmagic, fun h => absurd h hmagic⟩
    · rintro ⟨hm, -, -, -⟩
      exact ⟨hm, inside_nil⟩

/-! ## The loop -/

theorem nextNode_lt {ofs ofs' : ℕ} (h : nextNode c mem ofs = some ofs') : ofs < c.erasesize := by
  rw [nextNode] at h
  split at h
  · next hin => exact hin.1
  · cases h

/-- What a node adds to the numbers found. -/
def noteNode (c : Config) (mem : ℕ → UInt8) (dir : List UInt8) (ofs : ℕ) (f : Found) : Found :=
  if u16At c mem (ofs + 2) = nodetypeDirent then noteDirent c mem dir ofs f else f

/-- A round of the loop goes to the next node. -/
theorem parse_round (fuel ofs : ℕ) (f : Found) : mtdParseJffs2data c mem dir (fuel + 1) ofs f =
    match nextNode c mem ofs with
    | none => some f
    | some ofs' => mtdParseJffs2data c mem dir fuel ofs' (noteNode c mem dir ofs f) := by
  rw [mtdParseJffs2data, nextNode]
  by_cases hin : ofs < c.erasesize
  · by_cases hmagic : u16At c mem ofs = magicBitmask
    · simp only [if_pos hin, if_neg (not_not_intro hmagic), if_pos (And.intro hin hmagic), noteNode]
    · simp only [if_pos hin, if_pos hmagic, if_neg (fun h : _ ∧ _ => hmagic h.2)]
  · simp only [if_neg hin, if_neg (fun h : _ ∧ _ => hin h.1)]

theorem parse_ends_iff (ofs : ℕ) :
    (∀ f, ∃ fuel f', mtdParseJffs2data c mem dir fuel ofs f = some f') ↔ Ends (nextNode c mem) ofs := by
  constructor
  · intro h
    obtain ⟨fuel, f', hparse⟩ := h ⟨0, 0, 0⟩
    generalize (⟨0, 0, 0⟩ : Found) = f at hparse
    clear h
    induction fuel generalizing ofs f with
    | zero => cases hparse
    | succ fuel ih =>
      rw [parse_round] at hparse
      cases hnext : nextNode c mem ofs with
      | none => exact Ends.last hnext
      | some ofs' =>
        rw [hnext] at hparse
        exact Ends.step hnext (ih ofs' _ hparse)
  · intro h
    induction h with
    | last hnext => exact fun f => ⟨1, f, by rw [parse_round, hnext]⟩
    | @step ofs ofs' hnext _ ih =>
      intro f
      obtain ⟨fuel, f', hrest⟩ := ih (noteNode c mem dir ofs f)
      exact ⟨fuel + 1, f', by rw [parse_round, hnext]; exact hrest⟩

/-- The rounds read what the nodes of the orbit make them read. -/
theorem parseAccesses_inside_iff (ofs : ℕ) : (∀ fuel, Inside c.erasesize (parseAccesses c mem dir fuel ofs)) ↔
    ∀ o, Reached (nextNode c mem) ofs o → o < c.erasesize → NodeFits c mem dir o := by
  constructor
  · intro h o ho hin
    induction ho using Relation.ReflTransGen.head_induction_on with
    | refl =>
      have hone := h 1
      rw [parseAccesses, if_pos hin, inside_append] at hone
      exact nodeAccesses_inside_iff.mp hone.1
    | @head ofs ofs' hnext _ ih =>
      apply ih
      intro fuel
      have hmore := h (fuel + 1)
      have hfollows : nextNode c mem ofs = some ofs' := hnext
      rw [parseAccesses, if_pos (nextNode_lt hfollows), inside_append, hfollows, Option.toList_some,
        List.flatMap_singleton] at hmore
      exact hmore.2
  · intro h fuel
    induction fuel generalizing ofs with
    | zero => exact inside_nil
    | succ fuel ih =>
      rw [parseAccesses]
      split
      · next hin =>
        rw [inside_append]
        refine ⟨nodeAccesses_inside_iff.mpr (h ofs Relation.ReflTransGen.refl hin), ?_⟩
        cases hnext : nextNode c mem ofs with
        | none => simp
        | some ofs' =>
          rw [Option.toList_some, List.flatMap_singleton]
          exact ih ofs' fun o ho => h o (Relation.ReflTransGen.head hnext ho)
      · exact inside_nil

/-- Parsing ends inside of the block exactly when following the lengths comes to nodes that fit, to each once. -/
theorem mtd_parse_safe_iff (c : Config) (mem : ℕ → UInt8) (dir : List UInt8) :
    ParseSafe c mem dir ↔ NodesFit c mem dir := by
  have hfinite := ends_iff (Set.finite_Iio c.erasesize) (fun _ _ (h : nextNode c mem _ = some _) => nextNode_lt h) 0
  rw [ParseSafe, parse_ends_iff, parseAccesses_inside_iff, hfinite]
  exact ⟨fun h => ⟨h.2, h.1⟩, fun h => ⟨h.once, h.fits⟩⟩

end Scan

/-- A block whose only node has the length zero. -/
def zeroLengthBlock : List UInt8 :=
  [0x19, 0x85, 0x20, 0x03, 0, 0, 0, 0] ++ List.replicate 4088 0xff

/-- Parsing stays at a node of length zero. -/
theorem mtd_parse_zero_length :
    ¬ ParseSafe ⟨true, 4096⟩ (blockMem zeroLengthBlock fun _ => 0xff) [] := by
  intro h
  have hnext : nextNode ⟨true, 4096⟩ (blockMem zeroLengthBlock fun _ => 0xff) 0 = some 0 := by decide +kernel
  exact ((parse_ends_iff 0).mp h.1).not_returns Relation.ReflTransGen.refl (Relation.TransGen.single hnext)

end Neufbox.Jffs2
