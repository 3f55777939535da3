import Neufbox.Library.Bits
import Neufbox.Library.BitCells
import Neufbox.Ip175c.Registers

/-! # The state in the registers

`update_state` scatters the state over bits of registers and `get_state` gathers it again. Each bit of the state
has a place of its own, with two exceptions: a number of VLANs above the largest sets the bit of the router
mode, and on the IP178C the VLAN mode is written to another register than the one it is read from. -/
namespace Neufbox.Ip175c
open Neufbox.Library.Bits Neufbox.Library.BitCells
set_option autoImplicit false
set_option maxHeartbeats 250000
set_option maxRecDepth 120000

abbrev Cells := List ((Reg × ℕ) × Bool)

/-! ## Masks of ports -/

/-- The place of a port's bit. -/
def portCell (addr : Reg) (bitLookup : List ℤ) (bits : BitVec 32) (i : ℕ) : Option ((Reg × ℕ) × Bool) :=
  if lookupBit bitLookup i = -1 then none else some ((addr, (lookupBit bitLookup i).toNat), bits.getLsbD i)

def portCells (addr : Reg) (bitLookup : List ℤ) (bits : BitVec 32) : Cells :=
  (List.range maxPorts).filterMap (portCell addr bitLookup bits)

/-- Bits in a table are bits of a register. -/
def InRegister (bitLookup : List ℤ) : Prop := ∀ i < maxPorts, lookupBit bitLookup i ≠ -1 → (lookupBit bitLookup i).toNat < 16

theorem getLsbD_moved (bits : BitVec 32) {i n b : ℕ} (hi : i < 32) (hb : b < 32) :
    (((bits &&& one i) >>> i) <<< n).getLsbD b = (decide (n = b) && bits.getLsbD i) := by
  rw [BitVec.getLsbD_shiftLeft, BitVec.getLsbD_ushiftRight, BitVec.getLsbD_and, one, BitVec.getLsbD_twoPow]
  by_cases hnb : n = b
  · subst hnb
    simp [hi, hb]
  · by_cases hlt : b < n
    · simp [hlt, hnb]
    · have hne : b - n ≠ 0 := by omega
      simp [hnb, hne]

theorem getLsbD_setPortBit (bits : BitVec 32) (bitLookup : List ℤ) (val : BitVec 32) {i b : ℕ} (hi : i < 32) (hb : b < 32)
    (hbit : lookupBit bitLookup i ≠ -1 → (lookupBit bitLookup i).toNat < 16) (addr : Reg) :
    (setPortBit bits bitLookup val i).getLsbD b =
      (lastAssigned (portCell addr bitLookup bits i).toList (addr, b)).getD (val.getLsbD b) := by
  rw [setPortBit, portCell]
  by_cases hnone : lookupBit bitLookup i = -1
  · rw [if_pos hnone, if_pos hnone]
    rfl
  · have hn : (lookupBit bitLookup i).toNat < 32 := lt_trans (hbit hnone) (by decide)
    rw [if_neg hnone, if_neg hnone, BitVec.getLsbD_or, getLsbD_moved bits hi hb, one, getLsbD_and_not_twoPow _ _ _ hn]
    by_cases hnb : (lookupBit bitLookup i).toNat = b
    · simp [lastAssigned, hnb]
    · simp [lastAssigned, hnb]

theorem getLsbD_setPortBits (bits : BitVec 32) (addr : Reg) (bitLookup : List ℤ) (hlookup : InRegister bitLookup)
    (ports : List ℕ) (hports : ∀ i ∈ ports, i < maxPorts) (val : BitVec 32) {b : ℕ} (hb : b < 32) :
    (ports.foldl (setPortBit bits bitLookup) val).getLsbD b =
      (lastAssigned (ports.filterMap (portCell addr bitLookup bits)) (addr, b)).getD (val.getLsbD b) := by
  induction ports generalizing val with
  | nil => rfl
  | cons i ports ih =>
    have hi := hports i List.mem_cons_self
    rw [List.foldl_cons, ih (fun i hi => hports i (List.mem_cons_of_mem _ hi)),
      getLsbD_setPortBit bits bitLookup val (lt_trans hi (by decide)) hb (hlookup i hi) addr]
    have hsplit : (i :: ports).filterMap (portCell addr bitLookup bits) =
        (portCell addr bitLookup bits i).toList ++ ports.filterMap (portCell addr bitLookup bits) := by
      rw [List.filterMap_cons]
      cases portCell addr bitLookup bits i <;> rfl
    rw [hsplit, lastAssigned_append]
    cases lastAssigned (ports.filterMap (portCell addr bitLookup bits)) (addr, b) <;> rfl

theorem portCells_register {addr : Reg} {bitLookup : List ℤ} {bits : BitVec 32} :
    ∀ a ∈ portCells addr bitLookup bits, a.1.1 = addr := by
  intro a ha
  obtain ⟨i, -, hcell⟩ := List.mem_filterMap.mp ha
  rw [portCell] at hcell
  split at hcell
  · cases hcell
  · cases hcell
    rfl

theorem setPortBits_assigned (bits : BitVec 32) {addr : Reg} {bitLookup : List ℤ} (hlookup : InRegister bitLookup)
    (haddr : addr.supported = true) (regs : Regs) :
    ∃ regs', setPortBits bits addr bitLookup regs = some regs' ∧ Assigned (portCells addr bitLookup bits) regs regs' := by
  refine ⟨_, by rw [setPortBits, getPhy, if_pos haddr]; exact if_pos haddr, ?_⟩
  refine assigned_update addr _ portCells_register fun b hb => ?_
  have hword : (((List.range maxPorts).foldl (setPortBit bits bitLookup) ((regs addr).setWidth 32)).setWidth 16).getLsbD b =
      ((List.range maxPorts).foldl (setPortBit bits bitLookup) ((regs addr).setWidth 32)).getLsbD b := by
    simp [hb]
  rw [hword, getLsbD_setPortBits bits addr bitLookup hlookup _ (fun i hi => List.mem_range.mp hi) _ (lt_trans hb (by decide))]
  have hold : ((regs addr).setWidth 32).getLsbD b = (regs addr).getLsbD b := by
    simp [lt_trans hb (by decide : 16 < 32)]
  rw [hold]
  rfl

/-! ## Pvids and flags -/

/-- The bits of a whole register. -/
def wordCells (addr : Reg) (value : BitVec 16) : Cells := (List.range 16).map fun b => ((addr, b), value.getLsbD b)

theorem wordCells_nodup (addr : Reg) (value : BitVec 16) : ((wordCells addr value).map Prod.fst).Nodup := by
  rw [wordCells, List.map_map]
  exact List.nodup_range.map fun b b' h => (Prod.mk.inj h).2

theorem mem_wordCells (addr : Reg) (value : BitVec 16) {b : ℕ} (hb : b < 16) :
    ((addr, b), value.getLsbD b) ∈ wordCells addr value := List.mem_map.mpr ⟨b, List.mem_range.mpr hb, rfl⟩

def pvidCells (map : RegisterMappings) (state : State) (i : ℕ) : Cells :=
  if (defaultTagReg map i).supported then wordCells (defaultTagReg map i) (state.ports i).pvid else []

theorem setPvid_assigned (map : RegisterMappings) (state : State) (i : ℕ) (regs : Regs) :
    ∃ regs', setPvid map state regs i = some regs' ∧ Assigned (pvidCells map state i) regs regs' := by
  rw [setPvid, pvidCells]
  by_cases hsupp : (defaultTagReg map i).supported = true
  · rw [if_pos hsupp, if_pos hsupp, setPhy, if_pos hsupp]
    refine ⟨_, rfl, assigned_update _ _ ?_ fun b hb => ?_⟩
    · intro a ha
      obtain ⟨b, -, rfl⟩ := List.mem_map.mp ha
      rfl
    · rw [lastAssigned_of_mem _ (wordCells_nodup _ _) (mem_wordCells _ _ hb)]
      simp [hb]
  · rw [if_neg hsupp, if_neg hsupp]
    exact ⟨regs, rfl, assigned_nil regs⟩

/-- Where the flags are: the bit above the number of VLANs is the one of the router mode. -/
structure FlagsFit (map : RegisterMappings) : Prop where
  supported : map.routerControlReg.supported = true
  numlan : 0 ≤ map.numlanGroupsBit
  router : map.routerEnBit = map.numlanGroupsBit + 3
  inside : map.routerEnBit < 16
  groups : map.numlanGroupsMax = 8
  tag : 0 ≤ map.tagVlanBit ∧ map.tagVlanBit < 16
  apart : map.tagVlanBit < map.numlanGroupsBit ∨ map.routerEnBit < map.tagVlanBit

/-- A number of VLANs that does not fit into its field. -/
def TooMany (map : RegisterMappings) (state : State) : Prop := map.numlanGroupsMax < state.numVlans

instance (map : RegisterMappings) (state : State) : Decidable (TooMany map state) := by
  unfold TooMany
  infer_instance

def flagCells (map : RegisterMappings) (state : State) : Cells :=
  [((map.routerControlReg, map.routerEnBit.toNat), decide (state.routerMode ≠ 0 ∨ TooMany map state)),
    ((map.routerControlReg, map.tagVlanBit.toNat), decide (state.vlanEnabled ≠ 0))] ++
  (List.range 3).map fun k => ((map.routerControlReg, map.numlanGroupsBit.toNat + k),
    if TooMany map state then false else (state.numVlans - 1).toNat.testBit k)

theorem getLsbD_setFlag (bit value : ℤ) (val : BitVec 32) (b : ℕ) (hbit : 0 ≤ bit) (hlt : bit < 16) :
    (setFlag bit value val).getLsbD b = if b = bit.toNat then decide (value ≠ 0) else val.getLsbD b := by
  have hn : bit.toNat < 32 := by omega
  rw [setFlag, if_pos hbit]
  by_cases hvalue : value ≠ 0
  · rw [if_pos hvalue, one, getLsbD_or_twoPow _ _ _ hn]
    by_cases hb : b = bit.toNat
    · simp [hb, hvalue]
    · simp [hb, Ne.symm hb]
  · rw [if_neg hvalue, one, getLsbD_and_not_twoPow _ _ _ hn]
    by_cases hb : b = bit.toNat
    · simp [hb, hvalue]
    · simp [hb, Ne.symm hb]

/-- The field for the number of VLANs, and the bit above it. -/
theorem getLsbD_setNumVlans {map : RegisterMappings} (hfit : FlagsFit map) {state : State} (hnum : 1 ≤ state.numVlans)
    (val : BitVec 32) {b : ℕ} (hb : b < 16) :
    (setNumVlans map state.numVlans val).getLsbD b =
      if map.numlanGroupsBit.toNat ≤ b ∧ b < map.numlanGroupsBit.toNat + 3 then
        (if TooMany map state then false else (state.numVlans - 1).toNat.testBit (b - map.numlanGroupsBit.toNat))
      else (val.getLsbD b || decide (b = map.numlanGroupsBit.toNat + 3 ∧ TooMany map state)) := by
  have hseven : ∀ k < 32, (BitVec.ofInt 32 (8 - 1)).getLsbD k = decide (k < 3) := by decide
  have height : ∀ k < 32, (BitVec.ofInt 32 8).getLsbD k = decide (k = 3) := by decide
  have h32 : b < 32 := lt_trans hb (by decide)
  have hn := hfit.numlan
  rw [setNumVlans, if_pos hn, hfit.groups]
  generalize map.numlanGroupsBit.toNat = n
  have hmask : (val &&& ~~~(BitVec.ofInt 32 (8 - 1) <<< n)).getLsbD b =
      (val.getLsbD b && !decide (n ≤ b ∧ b < n + 3)) := by
    rw [BitVec.getLsbD_and, BitVec.getLsbD_not, BitVec.getLsbD_shiftLeft, hseven _ (by omega)]
    by_cases hlow : b < n
    · simp [h32, hlow, show ¬ n ≤ b by omega]
    · simp [h32, hlow, show n ≤ b by omega, show b - n < 3 ↔ b < n + 3 by omega]
  by_cases hmany : 8 < state.numVlans
  · have htoo : TooMany map state := by rw [TooMany, hfit.groups]; exact hmany
    rw [if_pos hmany, BitVec.getLsbD_or, hmask, BitVec.getLsbD_shiftLeft, height _ (by omega)]
    by_cases hfield : n ≤ b ∧ b < n + 3
    · simp [hfield, htoo, show ¬ b - n = 3 by omega]
    · by_cases hlow : b < n
      · simp [hfield, htoo, h32, hlow, show ¬ b = n + 3 by omega]
      · simp [hfield, htoo, h32, hlow, show b - n = 3 ↔ b = n + 3 by omega]
  · have htoo : ¬ TooMany map state := by rw [TooMany, hfit.groups]; exact hmany
    obtain ⟨m, hm⟩ : ∃ m : ℕ, state.numVlans - 1 = m := ⟨(state.numVlans - 1).toNat, by omega⟩
    rw [if_neg hmany, if_pos hnum, BitVec.getLsbD_or, hmask, BitVec.getLsbD_shiftLeft, hm, BitVec.ofInt_natCast,
      BitVec.getLsbD_ofNat, Int.toNat_natCast]
    by_cases hfield : n ≤ b ∧ b < n + 3
    · simp [hfield, htoo, h32, show ¬ b < n by omega, show b - n < 32 by omega]
    · by_cases hlow : b < n
      · simp [hfield, htoo, h32, hlow]
      · have hbig : m.testBit (b - n) = false := by
          refine Nat.testBit_lt_two_pow (lt_of_lt_of_le (by omega : m < 2 ^ 3) ?_)
          exact Nat.pow_le_pow_right (by decide) (by omega)
        simp [hfield, htoo, h32, hlow, hbig]

theorem flagCells_nodup {map : RegisterMappings} (hfit : FlagsFit map) (state : State) :
    ((flagCells map state).map Prod.fst).Nodup := by
  have hn := hfit.numlan
  have hrouter := hfit.router
  have htag := hfit.tag
  have hapart := hfit.apart
  have hkeys : (flagCells map state).map Prod.fst = [(map.routerControlReg, map.routerEnBit.toNat),
      (map.routerControlReg, map.tagVlanBit.toNat), (map.routerControlReg, map.numlanGroupsBit.toNat),
      (map.routerControlReg, map.numlanGroupsBit.toNat + 1), (map.routerControlReg, map.numlanGroupsBit.toNat + 2)] := rfl
  rw [hkeys]
  simp only [List.nodup_cons, List.mem_cons, Prod.mk.injEq, true_and, List.not_mem_nil, or_false, not_or,
    not_false_eq_true, List.nodup_nil, and_true]
  omega

theorem updateFlags_assigned {map : RegisterMappings} (hfit : FlagsFit map) {state : State} (hnum : 1 ≤ state.numVlans)
    (regs : Regs) :
    ∃ regs', updateFlags map state regs = some regs' ∧ Assigned (flagCells map state) regs regs' := by
  have hn := hfit.numlan
  have hrouter := hfit.router
  have hinside := hfit.inside
  have htag := hfit.tag
  have hapart := hfit.apart
  have hnodup := flagCells_nodup hfit state
  refine ⟨_, by rw [updateFlags, if_pos hfit.supported, getPhy, if_pos hfit.supported]; exact if_pos hfit.supported, ?_⟩
  refine assigned_update _ _ ?_ fun b hb => ?_
  · intro a ha
    rw [flagCells, List.mem_append, List.mem_cons, List.mem_singleton] at ha
    rcases ha with (rfl | rfl) | ha
    · rfl
    · rfl
    · obtain ⟨k, -, rfl⟩ := List.mem_map.mp ha
      rfl
  · have hold : ((regs map.routerControlReg).setWidth 32).getLsbD b = (regs map.routerControlReg).getLsbD b := by
      simp [lt_trans hb (by decide : 16 < 32)]
    rw [BitVec.getLsbD_setWidth, getLsbD_setNumVlans hfit hnum _ hb, getLsbD_setFlag _ _ _ _ htag.1 htag.2,
      getLsbD_setFlag _ _ _ _ (by omega) hinside, hold]
    simp only [hb, decide_true, Bool.true_and]
    by_cases hfield : map.numlanGroupsBit.toNat ≤ b ∧ b < map.numlanGroupsBit.toNat + 3
    · obtain ⟨k, rfl⟩ := Nat.exists_eq_add_of_le hfield.1
      have hmem : ((map.routerControlReg, map.numlanGroupsBit.toNat + k),
          if TooMany map state then false else (state.numVlans - 1).toNat.testBit k) ∈ flagCells map state :=
        List.mem_append_right _ (List.mem_map.mpr ⟨k, List.mem_range.mpr (by omega), rfl⟩)
      rw [if_pos hfield, lastAssigned_of_mem _ hnodup hmem, Nat.add_sub_cancel_left]
      rfl
    · rw [if_neg hfield]
      by_cases hr : b = map.routerEnBit.toNat
      · have hmem : ((map.routerControlReg, b), decide (state.routerMode ≠ 0 ∨ TooMany map state)) ∈ flagCells map state := by
          rw [hr]
          exact List.mem_append_left _ List.mem_cons_self
        rw [lastAssigned_of_mem _ hnodup hmem, if_neg (by omega), if_pos hr]
        simp [show b = map.numlanGroupsBit.toNat + 3 by omega]
      · have habove : ¬ b = map.numlanGroupsBit.toNat + 3 := by omega
        by_cases ht : b = map.tagVlanBit.toNat
        · have hmem : ((map.routerControlReg, b), decide (state.vlanEnabled ≠ 0)) ∈ flagCells map state := by
            rw [ht]
            exact List.mem_append_left _ (List.mem_cons_of_mem _ List.mem_cons_self)
          rw [lastAssigned_of_mem _ hnodup hmem, if_pos ht]
          simp [habove]
        · have hmem : (map.routerControlReg, b) ∉ (flagCells map state).map Prod.fst := by
            simp only [flagCells, List.map_append, List.map_map, List.mem_append, List.map_cons, List.map_nil, List.mem_cons,
              Prod.mk.injEq, true_and, List.not_mem_nil, or_false, List.mem_map, List.mem_range, Function.comp_apply]
            rintro ((h | h) | ⟨k, hk, h⟩) <;> omega
          rw [lastAssigned_of_not_mem _ _ hmem, if_neg ht, if_neg hr]
          simp [habove]

/-! ## The whole state -/

def shareCells (map : RegisterMappings) (state : State) (j : ℕ) : Cells :=
  portCells (setLookupReg map j) (vlanLookupBits map j) (state.ports j).shareports

def vlanCells (map : RegisterMappings) (state : State) (j : ℕ) : Cells :=
  portCells (vlanMaskReg map j) (tagVlanMaskBits map j) (state.vlanPorts j)

/-- All bits of the state, in the order in which they are written. -/
def stateCells (map : RegisterMappings) (state : State) : Cells :=
  portCells map.addTagReg map.addTagBit state.addTag ++ (portCells map.removeTagReg map.removeTagBit state.removeTag ++
    ((List.range map.numPorts).flatMap (shareCells map state) ++ ((List.range maxVlans).flatMap (vlanCells map state) ++
      ((List.range maxPorts).flatMap (pvidCells map state) ++ flagCells map state))))

/-- A table of bits for the ports of the switch, and for no others. -/
def TableFits (map : RegisterMappings) (bitLookup : List ℤ) : Prop :=
  ∀ i < maxPorts, (i < map.numPorts → 0 ≤ lookupBit bitLookup i ∧ lookupBit bitLookup i < 16) ∧
    (map.numPorts ≤ i → lookupBit bitLookup i = -1)

instance (map : RegisterMappings) (bitLookup : List ℤ) : Decidable (TableFits map bitLookup) := by
  unfold TableFits
  infer_instance

theorem TableFits.inRegister {map : RegisterMappings} {bitLookup : List ℤ} (h : TableFits map bitLookup) :
    InRegister bitLookup := by
  intro i hi hne
  by_cases hport : i < map.numPorts
  · have hrange := (h i hi).1 hport
    omega
  · exact absurd ((h i hi).2 (not_lt.mp hport)) hne

/-- A map in which every bit of the state has a register and a place of its own. -/
structure Regular (map : RegisterMappings) : Prop where
  ports : map.numPorts ≤ maxPorts
  addTag : map.addTagReg.supported = true ∧ TableFits map map.addTagBit
  removeTag : map.removeTagReg.supported = true ∧ TableFits map map.removeTagBit
  lookupReg : map.vlanLookupReg.supported = true
  share : ∀ j < map.numPorts, (setLookupReg map j).supported = true ∧ TableFits map (vlanLookupBits map j) ∧
    getLookupReg map j = setLookupReg map j
  maskReg : map.tagVlanMaskReg.supported = true
  vlans : ∀ j < maxVlans, (vlanMaskReg map j).supported = true ∧ TableFits map (tagVlanMaskBits map j)
  pvids : ∀ i < map.numPorts, (defaultTagReg map i).supported = true
  flags : FlagsFit map
  control : map.vlanControlReg.supported = true
  nodup : ∀ state, ((stateCells map state).map Prod.fst).Nodup

theorem updateState_assigned {map : RegisterMappings} (h : Regular map) {state : State} (hnum : 1 ≤ state.numVlans)
    (regs : Regs) :
    ∃ regs', updateState map state regs = some regs' ∧ Assigned (stateCells map state) regs regs' := by
  obtain ⟨regs₁, hset₁, has₁⟩ := setPortBits_assigned state.addTag h.addTag.2.inRegister h.addTag.1 regs
  obtain ⟨regs₂, hset₂, has₂⟩ := setPortBits_assigned state.removeTag h.removeTag.2.inRegister h.removeTag.1 regs₁
  obtain ⟨regs₃, hset₃, has₃⟩ := assigned_foldlM (setShareports map state) (shareCells map state)
    (List.range map.numPorts) (fun j hj regs => by
      obtain ⟨hsupp, htable, -⟩ := h.share j (List.mem_range.mp hj)
      rw [setShareports, if_pos hsupp]
      exact setPortBits_assigned _ htable.inRegister hsupp regs) regs₂
  obtain ⟨regs₄, hset₄, has₄⟩ := assigned_foldlM (setVlanPorts map state) (vlanCells map state)
    (List.range maxVlans) (fun j hj regs => by
      obtain ⟨hsupp, htable⟩ := h.vlans j (List.mem_range.mp hj)
      exact setPortBits_assigned _ htable.inRegister hsupp regs) regs₃
  obtain ⟨regs₅, hset₅, has₅⟩ := assigned_foldlM (setPvid map state) (pvidCells map state)
    (List.range maxPorts) (fun i _ regs => setPvid_assigned map state i regs) regs₄
  obtain ⟨regs', hset, has⟩ := updateFlags_assigned h.flags hnum regs₅
  refine ⟨regs', ?_, has₁.append (has₂.append (has₃.append (has₄.append (has₅.append has))))⟩
  simp only [updateState, hset₁, hset₂, hset₃, hset₄, hset₅, hset, h.lookupReg, h.maskReg, Option.bind_eq_bind,
    Option.bind_some, if_true]

/-! ## Reading -/

theorem getLsbD_getPortBits (val : BitVec 32) (bitLookup : List ℤ) (ports : List ℕ) (hports : ∀ i ∈ ports, i < 32)
    (bits : BitVec 32) (k : ℕ) :
    (ports.foldl (getPortBit val bitLookup) bits).getLsbD k = (bits.getLsbD k ||
      decide (k ∈ ports ∧ lookupBit bitLookup k ≠ -1 ∧ val.getLsbD (lookupBit bitLookup k).toNat = true)) := by
  induction ports generalizing bits with
  | nil => simp
  | cons i ports ih =>
    have hi := hports i List.mem_cons_self
    have hturn : (getPortBit val bitLookup bits i).getLsbD k = (bits.getLsbD k ||
        decide (k = i ∧ lookupBit bitLookup i ≠ -1 ∧ val.getLsbD (lookupBit bitLookup i).toNat = true)) := by
      rw [getPortBit]
      by_cases hnone : lookupBit bitLookup i = -1
      · simp [hnone]
      · rw [if_neg hnone, one]
        by_cases hbit : val.getLsbD (lookupBit bitLookup i).toNat = true
        · rw [if_pos ((and_twoPow_ne_zero_iff _ _).mpr hbit), one, getLsbD_or_twoPow _ _ _ hi]
          simp [hnone, hbit, eq_comm]
        · rw [if_neg (mt (and_twoPow_ne_zero_iff _ _).mp hbit)]
          simp [hbit]
    rw [List.foldl_cons, ih (fun i hi => hports i (List.mem_cons_of_mem _ hi)), hturn, Bool.or_assoc, ← Bool.decide_or]
    congr 2
    rw [List.mem_cons, eq_iff_iff]
    by_cases hki : k = i
    · subst hki
      tauto
    · tauto

/-- A mask is found again where its bits are in the register. -/
theorem getPortBits_eq {map : RegisterMappings} {addr : Reg} {bitLookup : List ℤ} (hports : map.numPorts ≤ maxPorts)
    (htable : TableFits map bitLookup) (haddr : addr.supported = true) {regs : Regs} {bits : BitVec 32}
    (hbits : bits.toNat < 2 ^ map.numPorts)
    (hregs : ∀ i < map.numPorts, (regs addr).getLsbD (lookupBit bitLookup i).toNat = bits.getLsbD i) :
    getPortBits addr bitLookup regs = some bits := by
  rw [getPortBits, getPhy, if_pos haddr]
  refine congrArg some (BitVec.eq_of_getLsbD_eq fun k hk => ?_)
  rw [getLsbD_getPortBits _ _ _ fun i hi => lt_trans (List.mem_range.mp hi) (by decide)]
  simp only [BitVec.ofNat_eq_ofNat, BitVec.getLsbD_zero, Bool.false_or, List.mem_range]
  by_cases hport : k < map.numPorts
  · have hmax : k < maxPorts := lt_of_lt_of_le hport hports
    have hrange := (htable k hmax).1 hport
    have hne : lookupBit bitLookup k ≠ -1 := by omega
    have hlt : (lookupBit bitLookup k).toNat < 32 := by omega
    simp [hmax, hne, hlt, hregs k hport]
  · have hclear : bits.getLsbD k = false :=
      Nat.testBit_lt_two_pow (lt_of_lt_of_le hbits (Nat.pow_le_pow_right (by decide) (not_lt.mp hport)))
    rw [hclear, decide_eq_false_iff_not]
    rintro ⟨hmax, hne, -⟩
    exact hne ((htable k hmax).2 (not_lt.mp hport))

theorem mem_portCells {map : RegisterMappings} (hports : map.numPorts ≤ maxPorts) {bitLookup : List ℤ}
    (htable : TableFits map bitLookup) (addr : Reg) (bits : BitVec 32) {i : ℕ} (hi : i < map.numPorts) :
    ((addr, (lookupBit bitLookup i).toNat), bits.getLsbD i) ∈ portCells addr bitLookup bits ∧
      (lookupBit bitLookup i).toNat < 16 := by
  have hmax : i < maxPorts := lt_of_lt_of_le hi hports
  have hrange := (htable i hmax).1 hi
  refine ⟨List.mem_filterMap.mpr ⟨i, List.mem_range.mpr hmax, ?_⟩, by omega⟩
  rw [portCell, if_neg (by omega)]

/-- A mask whose bits were assigned. -/
theorem getPortBits_assigned {map : RegisterMappings} (h : Regular map) {state : State} {regs regs' : Regs}
    (has : Assigned (stateCells map state) regs regs') {addr : Reg} {bitLookup : List ℤ} (htable : TableFits map bitLookup)
    (haddr : addr.supported = true) {bits : BitVec 32} (hbits : bits.toNat < 2 ^ map.numPorts)
    (hsub : portCells addr bitLookup bits ⊆ stateCells map state) : getPortBits addr bitLookup regs' = some bits := by
  refine getPortBits_eq h.ports htable haddr hbits fun i hi => ?_
  obtain ⟨hmem, hlt⟩ := mem_portCells h.ports htable addr bits hi
  exact has.get (h.nodup state) hlt (hsub hmem)

theorem flag_eq (val : BitVec 16) {bit : ℤ} (hbit : 0 ≤ bit) (hlt : bit < 16) (otherwise : ℤ) :
    flag (val.setWidth 32) bit otherwise = if val.getLsbD bit.toNat then 1 else 0 := by
  have hone : ∀ b : Bool, ((if b then 1 else 0 : ℕ) : ℤ) = if b then 1 else 0 := by decide
  have hand : ((val.setWidth 32 >>> bit.toNat) &&& 1).toNat = if val.getLsbD bit.toNat then 1 else 0 := by
    have hword : (val.setWidth 32 >>> bit.toNat) &&& 1 = if val.getLsbD bit.toNat then 1 else 0 := by
      have htwo : (1 : BitVec 32) = BitVec.twoPow 32 0 := rfl
      rw [htwo, BitVec.and_twoPow, BitVec.getLsbD_ushiftRight, Nat.add_zero, BitVec.getLsbD_setWidth]
      simp [show bit.toNat < 32 by omega]
    rw [hword]
    split <;> rfl
  rw [flag, if_pos hbit, hand, hone]

theorem collect_eq {α : Type} [Inhabited α] (n : ℕ) (f : ℕ → Option α) (g : ℕ → α) (hf : ∀ i < n, f i = some (g i)) :
    ∃ r, collect n f = some r ∧ ∀ i < n, r i = g i := by
  have hmap : (List.range n).mapM f = some ((List.range n).map g) := by
    have hlist : ∀ l : List ℕ, (∀ i ∈ l, i < n) → l.mapM f = some (l.map g) := by
      intro l
      induction l with
      | nil => intro _; rfl
      | cons i l ih =>
        intro hl
        rw [List.mapM_cons, hf i (hl i List.mem_cons_self), ih fun i hi => hl i (List.mem_cons_of_mem _ hi)]
        rfl
    exact hlist _ fun i hi => List.mem_range.mp hi
  refine ⟨_, by rw [collect, hmap]; rfl, fun i hi => ?_⟩
  simp [hi]

end Neufbox.Ip175c
