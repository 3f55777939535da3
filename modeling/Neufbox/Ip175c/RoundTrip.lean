import Neufbox.Library.Crc32
import Neufbox.Ip175c.Codec

/-! # Writing a state and reading it back

For both register maps, and over any contents of the registers: the masks and pvids are read back as they were
written, and the two flags where their bits are not in each other's way. -/
namespace Neufbox.Ip175c
open Neufbox.Library.Bits Neufbox.Library.BitCells
set_option autoImplicit false
set_option maxHeartbeats 250000
set_option maxRecDepth 120000

/-- The states that a switch can be in. -/
structure Logical (map : RegisterMappings) (state : State) : Prop where
  routerMode : state.routerMode = 0 ∨ state.routerMode = 1
  vlanEnabled : state.vlanEnabled = 0 ∨ state.vlanEnabled = 1
  addTag : state.addTag.toNat < 2 ^ map.numPorts
  removeTag : state.removeTag.toNat < 2 ^ map.numPorts
  shareports : ∀ j < map.numPorts, (state.ports j).shareports.toNat < 2 ^ map.numPorts
  vlanPorts : ∀ j < maxVlans, (state.vlanPorts j).toNat < 2 ^ map.numPorts
  numVlans : 1 ≤ state.numVlans ∧ state.numVlans ≤ maxVlans

/-- The same tags, masks and pvids for every port and every VLAN. -/
structure SameTables (map : RegisterMappings) (state state' : State) : Prop where
  addTag : state'.addTag = state.addTag
  removeTag : state'.removeTag = state.removeTag
  shareports : ∀ j < map.numPorts, (state'.ports j).shareports = (state.ports j).shareports
  pvid : ∀ j < map.numPorts, (state'.ports j).pvid = (state.ports j).pvid
  vlanPorts : ∀ j < maxVlans, state'.vlanPorts j = state.vlanPorts j

structure Same (map : RegisterMappings) (state state' : State) : Prop where
  routerMode : state'.routerMode = state.routerMode
  vlanEnabled : state'.vlanEnabled = state.vlanEnabled
  tables : SameTables map state state'

/-- A state that is found again after it was written over the registers. -/
def RoundTrips (map : RegisterMappings) (state : State) (regs : Regs) : Prop :=
  ∃ regs' state', updateState map state regs = some regs' ∧ getState map regs' = some state' ∧ Same map state state'

section Reading
variable {map : RegisterMappings} {state : State} {regs regs' : Regs}

theorem addTag_cells_subset : portCells map.addTagReg map.addTagBit state.addTag ⊆ stateCells map state :=
  List.subset_append_left _ _

theorem removeTag_cells_subset : portCells map.removeTagReg map.removeTagBit state.removeTag ⊆ stateCells map state := by
  intro a ha
  unfold stateCells
  exact List.mem_append_right _ (List.mem_append_left _ ha)

theorem shareCells_subset {j : ℕ} (hj : j < map.numPorts) : shareCells map state j ⊆ stateCells map state := by
  intro a ha
  have hmem : a ∈ (List.range map.numPorts).flatMap (shareCells map state) :=
    List.mem_flatMap.mpr ⟨j, List.mem_range.mpr hj, ha⟩
  simp only [stateCells, List.mem_append, hmem, true_or, or_true]

theorem vlanCells_subset {j : ℕ} (hj : j < maxVlans) : vlanCells map state j ⊆ stateCells map state := by
  intro a ha
  have hmem : a ∈ (List.range maxVlans).flatMap (vlanCells map state) :=
    List.mem_flatMap.mpr ⟨j, List.mem_range.mpr hj, ha⟩
  simp only [stateCells, List.mem_append, hmem, true_or, or_true]

theorem pvidCells_subset {j : ℕ} (hj : j < maxPorts) : pvidCells map state j ⊆ stateCells map state := by
  intro a ha
  have hmem : a ∈ (List.range maxPorts).flatMap (pvidCells map state) :=
    List.mem_flatMap.mpr ⟨j, List.mem_range.mpr hj, ha⟩
  simp only [stateCells, List.mem_append, hmem, true_or, or_true]

theorem flagCells_subset : flagCells map state ⊆ stateCells map state := by
  intro a ha
  simp only [stateCells, List.mem_append, ha, or_true]

variable (h : Regular map) (has : Assigned (stateCells map state) regs regs')
include h has

theorem getShareports_assigned (hlog : Logical map state) (j : ℕ) :
    getShareports map regs' j = some (if j < map.numPorts then (state.ports j).shareports else 0) := by
  rw [getShareports, if_pos h.lookupReg]
  by_cases hj : j < map.numPorts
  · obtain ⟨hsupp, htable, hreg⟩ := h.share j hj
    rw [hreg, if_pos ⟨hj, hsupp⟩, if_pos hj]
    exact getPortBits_assigned h has htable hsupp (hlog.shareports j hj) (shareCells_subset hj)
  · rw [if_neg fun hboth => hj hboth.1, if_neg hj]

theorem getVlanPorts_assigned (hlog : Logical map state) {j : ℕ} (hj : j < maxVlans) :
    getVlanPorts map regs' j = some (state.vlanPorts j) := by
  obtain ⟨hsupp, htable⟩ := h.vlans j hj
  rw [getVlanPorts, if_pos h.maskReg]
  exact getPortBits_assigned h has htable hsupp (hlog.vlanPorts j hj) (vlanCells_subset hj)

theorem getPvid_assigned {j : ℕ} (hj : j < map.numPorts) : getPvid map regs' j = (state.ports j).pvid := by
  have hsupp := h.pvids j hj
  rw [getPvid, if_pos hsupp]
  refine BitVec.eq_of_getLsbD_eq fun b hb => has.get (h.nodup state) hb ?_
  refine pvidCells_subset (lt_of_lt_of_le hj h.ports) ?_
  rw [pvidCells, if_pos hsupp]
  exact mem_wordCells _ _ hb

theorem routerEn_assigned : (regs' map.routerControlReg).getLsbD map.routerEnBit.toNat =
    decide (state.routerMode ≠ 0 ∨ TooMany map state) := by
  have hinside := h.flags.inside
  refine has.get (h.nodup state) (by omega) (flagCells_subset ?_)
  exact List.mem_append_left _ List.mem_cons_self

theorem tagVlan_assigned : (regs' map.routerControlReg).getLsbD map.tagVlanBit.toNat = decide (state.vlanEnabled ≠ 0) := by
  have htag := h.flags.tag
  refine has.get (h.nodup state) (by omega) (flagCells_subset ?_)
  exact List.mem_append_left _ (List.mem_cons_of_mem _ List.mem_cons_self)

omit has in
theorem getFlags_eq (regs' : Regs) : ∃ numVlans, getFlags map regs' = some
    (if (regs' map.routerControlReg).getLsbD map.routerEnBit.toNat then 1 else 0,
      if (regs' map.vlanControlReg).getLsbD map.tagVlanBit.toNat then 1 else 0, numVlans) := by
  have hn := h.flags.numlan
  have hrouter := h.flags.router
  have htag := h.flags.tag
  rw [getFlags, if_pos h.flags.supported, getPhy, getPhy, if_pos h.flags.supported, if_pos h.control]
  simp only [Option.bind_eq_bind, Option.bind_some]
  rw [flag_eq _ (by omega) h.flags.inside, flag_eq _ htag.1 htag.2]
  exact ⟨_, rfl⟩

/-- What is read back after a state was written: the tables, and the bits of the two flags. -/
theorem getState_assigned (hlog : Logical map state) :
    ∃ state', getState map regs' = some state' ∧ SameTables map state state' ∧
      state'.routerMode = (if state.routerMode ≠ 0 ∨ TooMany map state then 1 else 0) ∧
      state'.vlanEnabled = (if (regs' map.vlanControlReg).getLsbD map.tagVlanBit.toNat then 1 else 0) := by
  obtain ⟨numVlans, hflags⟩ := getFlags_eq h regs'
  have hremove := getPortBits_assigned h has h.removeTag.2 h.removeTag.1 hlog.removeTag removeTag_cells_subset
  have hadd := getPortBits_assigned h has h.addTag.2 h.addTag.1 hlog.addTag addTag_cells_subset
  obtain ⟨shares, hshares, hshare⟩ := collect_eq maxPorts (getShareports map regs') _
    fun j _ => getShareports_assigned h has hlog j
  obtain ⟨vlans, hvlans, hvlan⟩ := collect_eq maxVlans (getVlanPorts map regs') _
    fun j hj => getVlanPorts_assigned h has hlog hj
  refine ⟨_, by rw [getState, hflags, hremove, hadd, hshares, hvlans]; rfl, ?_, ?_, ?_⟩
  · refine ⟨rfl, rfl, fun j hj => ?_, fun j hj => getPvid_assigned h has hj, hvlan⟩
    exact (hshare j (lt_of_lt_of_le hj h.ports)).trans (if_pos hj)
  · simp only [routerEn_assigned h has, decide_eq_true_eq]
  · have hflag : ∀ b : Bool, (if b then 1 else 0 : ℤ) ≠ -1 := by decide
    exact if_neg (hflag _)

end Reading

/-! ## The two switches -/

def blankState : State := ⟨0, 0, fun _ => ⟨0, 0⟩, 0, 0, 1, fun _ => 0⟩

theorem portCells_keys (addr : Reg) (bitLookup : List ℤ) (bits bits' : BitVec 32) :
    (portCells addr bitLookup bits).map Prod.fst = (portCells addr bitLookup bits').map Prod.fst := by
  unfold portCells
  rw [List.map_filterMap, List.map_filterMap]
  congr 1
  funext i
  unfold portCell
  split <;> rfl

/-- Which bits are written does not depend on the state. -/
theorem stateCells_keys (map : RegisterMappings) (state : State) :
    (stateCells map state).map Prod.fst = (stateCells map blankState).map Prod.fst := by
  have hshare : ∀ j, (shareCells map state j).map Prod.fst = (shareCells map blankState j).map Prod.fst :=
    fun j => portCells_keys _ _ _ _
  have hvlan : ∀ j, (vlanCells map state j).map Prod.fst = (vlanCells map blankState j).map Prod.fst :=
    fun j => portCells_keys _ _ _ _
  have hpvid : ∀ i, (pvidCells map state i).map Prod.fst = (pvidCells map blankState i).map Prod.fst := by
    intro i
    unfold pvidCells wordCells
    split
    · rw [List.map_map, List.map_map]
      rfl
    · rfl
  have hflag : (flagCells map state).map Prod.fst = (flagCells map blankState).map Prod.fst := rfl
  simp only [stateCells, List.map_append, List.map_flatMap, hshare, hvlan, hpvid, hflag]
  rw [portCells_keys _ _ state.addTag blankState.addTag, portCells_keys _ _ state.removeTag blankState.removeTag]

/-- A bit of a register as a number. -/
def cellNumber (c : Reg × ℕ) : ℕ := (c.1.p * 32 + c.1.m) * 16 + c.2

theorem regular_IP175C : Regular IP175C where
  ports := by decide
  addTag := by decide
  removeTag := by decide
  lookupReg := by decide
  share := by decide
  maskReg := by decide
  vlans := by decide
  pvids := by decide
  flags := by constructor <;> decide
  control := by decide
  nodup state := by
    rw [stateCells_keys]
    exact List.Nodup.of_map cellNumber (Crc32.nodup_of_distinctFrom (by decide +kernel : Crc32.distinctFrom 0 _ = true)).1

theorem regular_IP178C : Regular IP178C where
  ports := by decide
  addTag := by decide
  removeTag := by decide
  lookupReg := by decide
  share := by decide
  maskReg := by decide
  vlans := by decide
  pvids := by decide
  flags := by constructor <;> decide
  control := by decide
  nodup state := by
    rw [stateCells_keys]
    exact List.Nodup.of_map cellNumber (Crc32.nodup_of_distinctFrom (by decide +kernel : Crc32.distinctFrom 0 _ = true)).1

inductive Chip
  | ip175c
  | ip178c
  deriving DecidableEq

def Chip.map : Chip → RegisterMappings
  | .ip175c => IP175C
  | .ip178c => IP178C

theorem Chip.regular : ∀ chip : Chip, Regular chip.map
  | .ip175c => regular_IP175C
  | .ip178c => regular_IP178C

/-- The bit from which `get_flags` takes the VLAN mode, for the chip on which no write reaches it. -/
def vlanModeBit (regs : Regs) : Bool := (regs IP178C.vlanControlReg).getLsbD IP178C.tagVlanBit.toNat

/-- The VLAN mode as it is read: what was written on the IP175C, what was there before on the IP178C. -/
def readVlanMode (state : State) (regs : Regs) : Chip → Bool
  | .ip175c => decide (state.vlanEnabled ≠ 0)
  | .ip178c => vlanModeBit regs

section Flags
variable {chip : Chip} {state : State} {regs regs' : Regs}

theorem vlanMode_assigned (has : Assigned (stateCells chip.map state) regs regs') :
    (regs' chip.map.vlanControlReg).getLsbD chip.map.tagVlanBit.toNat = readVlanMode state regs chip := by
  cases chip with
  | ip175c => exact tagVlan_assigned regular_IP175C has
  | ip178c =>
    refine has.get_other (by decide) ?_
    rw [stateCells_keys]
    decide +kernel

theorem tooMany_iff : TooMany chip.map state ↔ 8 < state.numVlans := by
  cases chip <;> exact Iff.rfl

theorem routerMode_same_iff (hlog : Logical chip.map state) :
    (if state.routerMode ≠ 0 ∨ TooMany chip.map state then 1 else 0) = state.routerMode ↔
      state.routerMode = 1 ∨ state.numVlans ≤ 8 := by
  simp only [tooMany_iff]
  rcases hlog.routerMode with hmode | hmode
  · by_cases hmany : 8 < state.numVlans
    · simp [hmode, hmany]
    · simp [hmode, hmany, not_lt.mp hmany]
  · simp [hmode]

theorem vlanMode_same_iff (hlog : Logical chip.map state) (b : Bool) :
    (if b then 1 else 0 : ℤ) = state.vlanEnabled ↔ b = decide (state.vlanEnabled = 1) := by
  rcases hlog.vlanEnabled with hmode | hmode
  · cases b <;> simp [hmode]
  · cases b <;> simp [hmode]

/-- A state is found again exactly where the two flags are. -/
theorem roundTrips_iff (hlog : Logical chip.map state) (regs : Regs) :
    RoundTrips chip.map state regs ↔ (state.routerMode = 1 ∨ state.numVlans ≤ 8) ∧
      (chip = .ip178c → vlanModeBit regs = decide (state.vlanEnabled = 1)) := by
  obtain ⟨regs', hupdate, has⟩ := updateState_assigned chip.regular hlog.numVlans.1 regs
  obtain ⟨state', hget, htables, hrouter, hvlan⟩ := getState_assigned chip.regular has hlog
  have hsame : RoundTrips chip.map state regs ↔
      state'.routerMode = state.routerMode ∧ state'.vlanEnabled = state.vlanEnabled := by
    constructor
    · rintro ⟨regs₁, state₁, hupdate₁, hget₁, hsame⟩
      rw [hupdate] at hupdate₁
      cases hupdate₁
      rw [hget] at hget₁
      cases hget₁
      exact ⟨hsame.routerMode, hsame.vlanEnabled⟩
    · exact fun h => ⟨regs', state', hupdate, hget, h.1, h.2, htables⟩
  rw [hsame, hrouter, hvlan, routerMode_same_iff hlog, vlanMode_same_iff hlog, vlanMode_assigned has]
  refine and_congr_right fun _ => ?_
  cases chip with
  | ip175c =>
    have hmode : decide (state.vlanEnabled ≠ 0) = decide (state.vlanEnabled = 1) := by
      rcases hlog.vlanEnabled with hmode | hmode <;> simp [hmode]
    simp [readVlanMode, hmode]
  | ip178c => simp [readVlanMode]

end Flags

/-- Over any registers, a state is written and found again if and only if the router mode is on or there are at
most eight VLANs, and, on the IP178C, bit three of register thirteen agrees with the VLAN mode beforehand. -/
theorem ip17xx_state_roundtrip_iff (chip : Chip) (state : State) (regs : Regs) (hlog : Logical chip.map state) :
    RoundTrips chip.map state regs ↔ (state.routerMode = 1 ∨ state.numVlans ≤ 8) ∧
      (chip = .ip178c → (regs ⟨30, 13⟩).getLsbD 3 = decide (state.vlanEnabled = 1)) :=
  roundTrips_iff hlog regs

/-- Two VLANs of tagged ports, and a state with nine. -/
def vlanState (numVlans : ℤ) : State where
  routerMode := 0
  vlanEnabled := 1
  ports := fun i => ⟨BitVec.ofNat 16 (i % 2 + 1), 0x3f⟩
  addTag := 0x20
  removeTag := 0x1f
  numVlans := numVlans
  vlanPorts := fun j => if j = 1 then 0x35 else if j = 2 then 0x2a else 0

theorem logical_vlanState (chip : Chip) {numVlans : ℤ} (hnum : 1 ≤ numVlans ∧ numVlans ≤ maxVlans) :
    Logical chip.map (vlanState numVlans) where
  routerMode := .inl rfl
  vlanEnabled := .inr rfl
  addTag := by cases chip <;> exact of_decide_eq_true rfl
  removeTag := by cases chip <;> exact of_decide_eq_true rfl
  shareports := by cases chip <;> exact of_decide_eq_true rfl
  vlanPorts := by cases chip <;> exact of_decide_eq_true rfl
  numVlans := hnum

theorem ip175c_two_vlans_roundtrip : RoundTrips IP175C (vlanState 2) (fun _ => 0) :=
  (ip17xx_state_roundtrip_iff .ip175c (vlanState 2) (fun _ => 0) (logical_vlanState .ip175c (by decide))).mpr
    ⟨.inr (by decide), fun h => by cases h⟩

/-- Nine VLANs switch the router mode on; on the IP178C the VLAN mode does not come back. -/
theorem ip17xx_state_lost :
    (Logical IP175C (vlanState 9) ∧ ¬ RoundTrips IP175C (vlanState 9) (fun _ => 0)) ∧
      Logical IP178C (vlanState 2) ∧ ¬ RoundTrips IP178C (vlanState 2) (fun _ => 0) := by
  have hnine := logical_vlanState .ip175c (by decide : 1 ≤ (9 : ℤ) ∧ (9 : ℤ) ≤ maxVlans)
  have htwo := logical_vlanState .ip178c (by decide : 1 ≤ (2 : ℤ) ∧ (2 : ℤ) ≤ maxVlans)
  refine ⟨⟨hnine, fun h => ?_⟩, htwo, fun h => ?_⟩
  · rcases ((roundTrips_iff hnine _).mp h).1 with hmode | hnum
    · exact absurd hmode (by decide)
    · exact absurd hnum (by decide)
  · exact absurd (((roundTrips_iff htwo _).mp h).2 rfl) (by decide)

end Neufbox.Ip175c
