import Neufbox.Library.Memory
import Neufbox.Library.WrapArith

/-! # The partition table generator

`gen_ptable` of `ptgen`: partitions one behind the other, each with a track in front of it and rounded up to a whole
number of cylinders. The tool runs on a little-endian host whose `long` has 64 bits. -/
namespace Neufbox.Ptgen
open WrapArith Memory
set_option autoImplicit false
set_option maxHeartbeats 250000
set_option maxRecDepth 120000

/-! ## The tool -/

/-- The options of the tool; `main` takes positive numbers of heads and sectors only. -/
structure Geometry where
  heads : ℕ
  sectors : ℕ
  active : ℤ

/-- A size in KiB, an `unsigned long`. -/
structure PartInfo where
  size : ℕ
  type : ℤ
  size_lt : size < 2 ^ 64

structure Chs where
  chs0 : BitVec 8
  chs1 : BitVec 8
  chs2 : BitVec 8

structure Pte where
  active : BitVec 8
  chsStart : Chs
  type : BitVec 8
  chsEnd : Chs
  start : ℕ
  length : ℕ

section Tool
variable (g : Geometry)

/-- `sect` is a `long`, the parts are of type `int`. -/
def toChs (sect : ℤ) : Chs :=
  let s := BitVec.ofInt 32 (sect.tmod g.sectors + 1)
  let sect := sect.tdiv g.sectors
  let h := BitVec.ofInt 32 (sect.tmod g.heads)
  let c := BitVec.ofInt 32 (sect.tdiv g.heads)
  ⟨h.setWidth 8, (s ||| (c.sshiftRight 2 &&& 0xC0)).setWidth 8, (c &&& 0xFF).setWidth 8⟩

/-- `sect` is a `long`, the result an `unsigned long`. -/
def roundToCyl (sect : ℤ) : ℤ :=
  let cylSize := signed 32 (g.heads * g.sectors)
  (sect + cylSize - sect.tmod cylSize) % 2 ^ 64

/-- One round of the loop: the entry and the new `sect`. -/
def genEntry (i : ℕ) (sect : ℤ) (part : PartInfo) : Pte × ℤ :=
  let start := signed 32 (sect + g.sectors)
  let sect := roundToCyl g (signed 64 (start + part.size * 2))
  let len := signed 32 (sect - start)
  ({ active := if (i + 1 : ℤ) = g.active then 0x80 else 0
     chsStart := toChs g start
     type := BitVec.ofInt 8 part.type
     chsEnd := toChs g (signed 32 (start + len - 1))
     start := (start % 2 ^ 32).toNat
     length := (len % 2 ^ 32).toNat }, sect)

def genEntries : ℕ → ℤ → List PartInfo → Except String (List Pte)
  | _, _, [] => .ok []
  | i, sect, part :: parts =>
      if part.size = 0 then .error ("Invalid size in partition " ++ toString i ++ "!\n")
      else (genEntries (i + 1) (genEntry g i sect part).2 parts).map ((genEntry g i sect part).1 :: ·)

def Chs.bytes (c : Chs) : List UInt8 := [⟨c.chs0⟩, ⟨c.chs1⟩, ⟨c.chs2⟩]

/-- An entry in memory. -/
def Pte.bytes (p : Pte) : List UInt8 :=
  [⟨p.active⟩] ++ p.chsStart.bytes ++ [⟨p.type⟩] ++ p.chsEnd.bytes ++ leBytes p.start ++ leBytes p.length

/-- The two writes to the output file, with their offsets: four entries, the ones that are not used zero, and the
signature. -/
def genPtable (parts : List PartInfo) : Except String (List (ℕ × List UInt8)) :=
  (genEntries g 0 0 parts).map fun ptes =>
    [(446, ptes.flatMap Pte.bytes ++ List.replicate (16 * (4 - ptes.length)) 0), (510, [0x55, 0xaa])]

/-! ## Reading the table -/

/-- The sector that an address stands for. -/
def decodeChs (c : Chs) : ℕ :=
  let cylinder := c.chs1.toNat / 64 * 256 + c.chs2.toNat
  (cylinder * g.heads + c.chs0.toNat) * g.sectors + (c.chs1.toNat % 64 - 1)

/-- The entry at the head of some bytes. -/
def Pte.read (b : List UInt8) : Pte where
  active := (b.getD 0 0).toBitVec
  chsStart := ⟨(b.getD 1 0).toBitVec, (b.getD 2 0).toBitVec, (b.getD 3 0).toBitVec⟩
  type := (b.getD 4 0).toBitVec
  chsEnd := ⟨(b.getD 5 0).toBitVec, (b.getD 6 0).toBitVec, (b.getD 7 0).toBitVec⟩
  start := leWord ((b.drop 8).take 4)
  length := leWord ((b.drop 12).take 4)

def readPtes : ℕ → List UInt8 → List Pte
  | 0, _ => []
  | n + 1, b => Pte.read b :: readPtes n (b.drop 16)

def cylSize : ℕ := g.heads * g.sectors

/-- The first boundary of a cylinder behind a sector number. -/
def nextCyl (x : ℕ) : ℕ := (x / cylSize g + 1) * cylSize g

/-- Where the partitions end, as numbers without bound. -/
def ends : ℕ → List PartInfo → List ℕ
  | _, [] => []
  | sect, part :: parts =>
      nextCyl g (sect + g.sectors + part.size * 2) :: ends (nextCyl g (sect + g.sectors + part.size * 2)) parts

/-- What an entry says about its partition. -/
structure EntryRight (part : PartInfo) (p : Pte) : Prop where
  behindZero : 0 < p.start
  long : 2 * part.size ≤ p.length
  cylinder : cylSize g ∣ p.start + p.length
  chsStart : p.start / cylSize g < 1024 → decodeChs g p.chsStart = p.start
  chsEnd : (p.start + p.length - 1) / cylSize g < 1024 → decodeChs g p.chsEnd = p.start + p.length - 1

end Tool

/-! ## The bytes of an entry -/

@[simp] theorem Pte.bytes_length (p : Pte) : p.bytes.length = 16 := rfl

theorem Pte.read_bytes {p : Pte} (hstart : p.start < 2 ^ 32) (hlength : p.length < 2 ^ 32) (rest : List UInt8) :
    Pte.read (p.bytes ++ rest) = p := by
  have hs : ((p.bytes ++ rest).drop 8).take 4 = leBytes p.start := rfl
  have hl : ((p.bytes ++ rest).drop 12).take 4 = leBytes p.length := rfl
  rw [Pte.read, hs, hl, leWord_leBytes hstart, leWord_leBytes hlength]
  rfl

theorem readPtes_flatMap {ptes : List Pte} (hfits : ∀ p ∈ ptes, p.start < 2 ^ 32 ∧ p.length < 2 ^ 32)
    (rest : List UInt8) : readPtes ptes.length (ptes.flatMap Pte.bytes ++ rest) = ptes := by
  induction ptes with
  | nil => rfl
  | cons p ptes ih =>
    obtain ⟨hstart, hlength⟩ := hfits p (by simp)
    have hrest := ih fun q hq => hfits q (by simp [hq])
    rw [List.flatMap_cons, List.append_assoc, List.length_cons, readPtes, Pte.read_bytes hstart hlength,
      List.drop_left' p.bytes_length, hrest]

/-! ## Cylinder, head and sector -/

structure Geometry.Valid (g : Geometry) : Prop where
  headsPos : 1 ≤ g.heads
  headsLe : g.heads ≤ 256
  sectorsPos : 1 ≤ g.sectors
  sectorsLe : g.sectors ≤ 63

/-- The upper bits of a cylinder number, where they are put. -/
theorem cylinder_bits (c : Fin 1024) :
    (BitVec.ofInt 32 (c : ℤ)).sshiftRight 2 &&& 0xC0 = BitVec.ofNat 32 (64 * (c / 256)) := by
  revert c
  decide +kernel

theorem sector_bits (s : Fin 64) (a : Fin 4) :
    ((BitVec.ofInt 32 (s : ℤ) ||| BitVec.ofNat 32 (64 * a)).setWidth 8).toNat = s + 64 * a := by
  revert s a
  decide +kernel

/-- The lower bits. -/
theorem cylinder_rest (c : Fin 1024) : ((BitVec.ofInt 32 (c : ℤ) &&& 0xFF).setWidth 8).toNat = c % 256 := by
  revert c
  decide +kernel

section Chs
variable {g : Geometry} (hg : g.Valid)

include hg in
theorem cylSize_pos : 0 < cylSize g := Nat.mul_pos hg.headsPos hg.sectorsPos

theorem toChs_natCast (n : ℕ) : toChs g n =
    ⟨(BitVec.ofInt 32 ((n / g.sectors % g.heads : ℕ) : ℤ)).setWidth 8,
      (BitVec.ofInt 32 ((n % g.sectors + 1 : ℕ) : ℤ) |||
        ((BitVec.ofInt 32 ((n / g.sectors / g.heads : ℕ) : ℤ)).sshiftRight 2 &&& 0xC0)).setWidth 8,
      (BitVec.ofInt 32 ((n / g.sectors / g.heads : ℕ) : ℤ) &&& 0xFF).setWidth 8⟩ := by
  have hmod (a b : ℕ) : (a : ℤ).tmod b = ((a % b : ℕ) : ℤ) := (Int.ofNat_tmod a b).symm
  have hdiv (a b : ℕ) : (a : ℤ).tdiv b = ((a / b : ℕ) : ℤ) := (Int.ofNat_tdiv a b).symm
  simp only [toChs, hmod, hdiv, Nat.cast_add, Nat.cast_one]

include hg in
/-- The packed address of a sector on one of the first 1024 cylinders is its address. -/
theorem decodeChs_toChs {n : ℕ} (h : n / cylSize g < 1024) : decodeChs g (toChs g n) = n := by
  have hcylinder : n / g.sectors / g.heads < 1024 := by
    rwa [Nat.div_div_eq_div_mul, Nat.mul_comm]
  have hsector : n % g.sectors + 1 < 64 := by
    have hlt := Nat.mod_lt n hg.sectorsPos
    have hle := hg.sectorsLe
    omega
  have hhead : n / g.sectors % g.heads < 256 := (Nat.mod_lt _ hg.headsPos).trans_le hg.headsLe
  -- the three bytes
  have hlow : ((BitVec.ofInt 32 ((n / g.sectors % g.heads : ℕ) : ℤ)).setWidth 8).toNat =
      n / g.sectors % g.heads := by
    simp only [BitVec.ofInt_natCast, BitVec.toNat_setWidth, BitVec.toNat_ofNat]
    omega
  have hmiddle := sector_bits ⟨n % g.sectors + 1, hsector⟩ ⟨n / g.sectors / g.heads / 256, by omega⟩
  have hup := cylinder_bits ⟨n / g.sectors / g.heads, hcylinder⟩
  have hrest := cylinder_rest ⟨n / g.sectors / g.heads, hcylinder⟩
  simp only at hmiddle hup hrest
  rw [toChs_natCast, decodeChs]
  simp only [hlow, hup, hmiddle, hrest]
  have hc : (n % g.sectors + 1 + 64 * (n / g.sectors / g.heads / 256)) / 64 = n / g.sectors / g.heads / 256 := by
    omega
  have hs : (n % g.sectors + 1 + 64 * (n / g.sectors / g.heads / 256)) % 64 - 1 = n % g.sectors := by omega
  rw [hc, hs, Nat.div_add_mod' (n / g.sectors / g.heads) 256, Nat.div_add_mod' (n / g.sectors) g.heads,
    Nat.div_add_mod' n g.sectors]

end Chs

/-! ## One round -/

section Round
variable {g : Geometry} (hg : g.Valid)

include hg in
theorem lt_nextCyl (x : ℕ) : x < nextCyl g x := by
  have hdiv := Nat.div_add_mod' x (cylSize g)
  have hmod := Nat.mod_lt x (cylSize_pos hg)
  rw [nextCyl, Nat.add_mul]
  omega

theorem dvd_nextCyl (x : ℕ) : cylSize g ∣ nextCyl g x := Dvd.intro_left _ rfl

include hg in
theorem roundToCyl_natCast {x : ℕ} (h : nextCyl g x < 2 ^ 64) : roundToCyl g x = (nextCyl g x : ℕ) := by
  have hsize : cylSize g ≤ 256 * 63 := Nat.mul_le_mul hg.headsLe hg.sectorsLe
  have hcyl : signed 32 (g.heads * g.sectors) = (cylSize g : ℕ) := by
    rw [← Nat.cast_mul]
    exact signed_natCast (show cylSize g * 2 < 2 ^ 32 by omega)
  have hdiv := Nat.div_add_mod' x (cylSize g)
  have hnext : nextCyl g x = x + cylSize g - x % cylSize g := by
    rw [nextCyl, Nat.add_mul]
    omega
  have hmod : x % cylSize g ≤ x + cylSize g := (Nat.mod_le _ _).trans (Nat.le_add_right _ _)
  have hsum : (x : ℤ) + cylSize g - ((x % cylSize g : ℕ) : ℤ) = (nextCyl g x : ℕ) := by
    rw [hnext, Nat.cast_sub hmod, Nat.cast_add]
  have htmod : (x : ℤ).tmod (cylSize g : ℕ) = ((x % cylSize g : ℕ) : ℤ) := (Int.ofNat_tmod _ _).symm
  simp only [roundToCyl, hcyl, htmod, hsum]
  exact Int.emod_eq_of_lt (by omega) (by exact_mod_cast h)

include hg in
/-- A round whose sector numbers fit computes without loss. -/
theorem genEntry_fits (i : ℕ) {sect : ℕ} {part : PartInfo}
    (h : nextCyl g (sect + g.sectors + part.size * 2) ≤ 2 ^ 31) :
    genEntry g i sect part =
      (⟨if (i + 1 : ℤ) = g.active then 0x80 else 0, toChs g (sect + g.sectors : ℕ), BitVec.ofInt 8 part.type,
          toChs g (nextCyl g (sect + g.sectors + part.size * 2) - 1 : ℕ), sect + g.sectors,
          nextCyl g (sect + g.sectors + part.size * 2) - (sect + g.sectors)⟩,
        ((nextCyl g (sect + g.sectors + part.size * 2) : ℕ) : ℤ)) := by
  have hlt := lt_nextCyl hg (sect + g.sectors + part.size * 2)
  have hstart : signed 32 ((sect : ℤ) + (g.sectors : ℤ)) = (sect + g.sectors : ℕ) := by
    rw [← Nat.cast_add]
    exact signed_natCast (by omega)
  have hbehind : signed 64 (((sect + g.sectors : ℕ) : ℤ) + (part.size : ℤ) * 2) =
      (sect + g.sectors + part.size * 2 : ℕ) := by
    have hcast : ((sect + g.sectors : ℕ) : ℤ) + (part.size : ℤ) * 2 =
        (sect + g.sectors + part.size * 2 : ℕ) := by push_cast; ring
    rw [hcast]
    exact signed_natCast (by omega)
  have hround := roundToCyl_natCast hg (lt_of_le_of_lt h (by norm_num))
  set e := nextCyl g (sect + g.sectors + part.size * 2) with he
  have hpos : 0 < g.sectors := hg.sectorsPos
  have hlen : signed 32 ((e : ℤ) - ((sect + g.sectors : ℕ) : ℤ)) = (e - (sect + g.sectors) : ℕ) := by
    rw [← Nat.cast_sub (by omega)]
    exact signed_natCast (by omega)
  have hlast : signed 32 (((sect + g.sectors : ℕ) : ℤ) + ((e - (sect + g.sectors) : ℕ) : ℤ) - 1) =
      (e - 1 : ℕ) := by
    have hcast : ((sect + g.sectors : ℕ) : ℤ) + ((e - (sect + g.sectors) : ℕ) : ℤ) - 1 = (e - 1 : ℕ) := by
      omega
    rw [hcast]
    exact signed_natCast (by omega)
  have hwidth {n : ℕ} (hn : n ≤ 2 ^ 31) : ((n : ℤ) % 2 ^ 32).toNat = n := by omega
  simp only [genEntry, hstart, hbehind, hround, hlen, hlast, hwidth (by omega : sect + g.sectors ≤ 2 ^ 31),
    hwidth (by omega : e - (sect + g.sectors) ≤ 2 ^ 31)]

include hg in
theorem genEntry_right (i : ℕ) {sect : ℕ} {part : PartInfo}
    (h : nextCyl g (sect + g.sectors + part.size * 2) ≤ 2 ^ 31) :
    EntryRight g part (genEntry g i sect part).1 := by
  have hlt := lt_nextCyl hg (sect + g.sectors + part.size * 2)
  have hpos : 0 < g.sectors := hg.sectorsPos
  have hend : sect + g.sectors + (nextCyl g (sect + g.sectors + part.size * 2) - (sect + g.sectors)) =
      nextCyl g (sect + g.sectors + part.size * 2) := by omega
  rw [genEntry_fits hg i h]
  constructor
  · simp only
    omega
  · simp only
    omega
  · simp only [hend]
    exact dvd_nextCyl _
  · intro hcylinder
    exact decodeChs_toChs hg hcylinder
  · simp only [hend]
    intro hcylinder
    exact decodeChs_toChs hg hcylinder

end Round

/-! ## The table -/

section Table
variable {g : Geometry} (hg : g.Valid)

include hg in
/-- The entries from a sector number on stand behind it, in their order. -/
theorem genEntries_right {parts : List PartInfo} (hsize : ∀ part ∈ parts, part.size ≠ 0) :
    ∀ (i sect : ℕ), (∀ e ∈ ends g sect parts, e ≤ 2 ^ 31) →
      ∃ ptes, genEntries g i sect parts = .ok ptes ∧ List.Forall₂ (EntryRight g) parts ptes ∧
        (∀ p ∈ ptes, sect < p.start ∧ p.start + p.length ≤ 2 ^ 31) ∧
        ptes.Pairwise (fun p q => p.start + p.length < q.start) := by
  induction parts with
  | nil =>
    intro i sect _
    exact ⟨[], rfl, .nil, by simp, .nil⟩
  | cons part parts ih =>
    intro i sect hfits
    have hend : nextCyl g (sect + g.sectors + part.size * 2) ≤ 2 ^ 31 := hfits _ (by simp [ends])
    have hlt := lt_nextCyl hg (sect + g.sectors + part.size * 2)
    have hpos : 0 < g.sectors := hg.sectorsPos
    have hentry := genEntry_fits hg i hend
    have hright := genEntry_right hg i hend
    have hstart : (genEntry g i sect part).1.start = sect + g.sectors := by rw [hentry]
    have hbehind : (genEntry g i sect part).1.start + (genEntry g i sect part).1.length =
        nextCyl g (sect + g.sectors + part.size * 2) := by
      rw [hentry]
      simp only
      omega
    have hsect : (genEntry g i sect part).2 = (nextCyl g (sect + g.sectors + part.size * 2) : ℕ) := by
      rw [hentry]
    obtain ⟨ptes, hptes, hall, hafter, hsorted⟩ := ih (fun q hq => hsize q (List.mem_cons_of_mem _ hq)) (i + 1)
      (nextCyl g (sect + g.sectors + part.size * 2)) (fun e he => hfits e (List.mem_cons_of_mem _ he))
    refine ⟨(genEntry g i sect part).1 :: ptes, ?_, .cons hright hall, ?_, .cons ?_ hsorted⟩
    · rw [genEntries, if_neg (hsize part (List.mem_cons_self ..)), hsect, hptes]
      rfl
    · intro p hp
      obtain rfl | hp := List.mem_cons.mp hp
      · omega
      · have hp' := hafter p hp
        omega
    · intro q hq
      rw [hbehind]
      exact (hafter q hq).1

/-- The table on the disk says of each partition what it should, and no two partitions meet. -/
theorem gen_ptable_entries (g : Geometry) (hg : g.Valid) (parts : List PartInfo) (hfour : parts.length ≤ 4)
    (hsize : ∀ part ∈ parts, part.size ≠ 0) (hfits : ∀ e ∈ ends g 0 parts, e ≤ 2 ^ 31) :
    ∃ table, genPtable g parts = .ok [(446, table), (510, [0x55, 0xaa])] ∧ table.length = 64 ∧
      List.Forall₂ (EntryRight g) parts (readPtes parts.length table) ∧
      (readPtes parts.length table).Pairwise (fun p q => p.start + p.length ≤ q.start) := by
  obtain ⟨ptes, hptes, hall, hinside, hsorted⟩ := genEntries_right hg hsize 0 0 hfits
  have hlength : parts.length = ptes.length := hall.length_eq
  have hread : readPtes parts.length
      (ptes.flatMap Pte.bytes ++ List.replicate (16 * (4 - ptes.length)) 0) = ptes := by
    rw [hlength]
    apply readPtes_flatMap
    intro p hp
    have hend := (hinside p hp).2
    constructor <;> omega
  refine ⟨ptes.flatMap Pte.bytes ++ List.replicate (16 * (4 - ptes.length)) 0, ?_, ?_, ?_, ?_⟩
  · have hcast : ((0 : ℕ) : ℤ) = 0 := rfl
    rw [genPtable, ← hcast, hptes]
    rfl
  · simp only [List.length_append, List.length_flatMap, Pte.bytes_length, List.map_const', List.sum_replicate,
      List.length_replicate, smul_eq_mul]
    omega
  · rwa [hread]
  · rw [hread]
    exact hsorted.imp fun h => h.le

end Table

theorem small_size_lt : 4096 < 2 ^ 64 := by norm_num

/-- A kernel of 4 MiB and a file system of the same size. -/
def twoParts : List PartInfo := [⟨4096, 0x83, small_size_lt⟩, ⟨4096, 0x83, small_size_lt⟩]

theorem gen_ptable_entries_two :
    ∃ table, genPtable ⟨16, 63, 1⟩ twoParts = .ok [(446, table), (510, [0x55, 0xaa])] ∧ table.length = 64 ∧
      List.Forall₂ (EntryRight ⟨16, 63, 1⟩) twoParts (readPtes twoParts.length table) ∧
      (readPtes twoParts.length table).Pairwise (fun p q => p.start + p.length ≤ q.start) :=
  gen_ptable_entries ⟨16, 63, 1⟩ ⟨by norm_num, by norm_num, by norm_num, by norm_num⟩ twoParts (by simp [twoParts])
    (by simp [twoParts]) (by simp [twoParts, ends, nextCyl, cylSize])

end Neufbox.Ptgen
