import Neufbox.Library.Bits
import Neufbox.Ar8216.Driver

/-! # What is written to the switch

`ar8216_hw_apply` writes the VLANs to the translation unit and two registers for each port. Here are the
destination masks it computes, the registers of the ports behind it and, when the translation unit does not
time out, its operations. -/
namespace Neufbox.Ar8216
open Neufbox.Library.Bits
set_option autoImplicit false
set_option maxHeartbeats 250000
set_option maxRecDepth 120000

/-! ## Histories of writes -/

/-- The last value that was written to a register. -/
def lastWrite (writes : List (ℕ × BitVec 32)) (reg : ℕ) : Option (BitVec 32) :=
  writes.foldl (fun last w => if w.1 = reg then some w.2 else last) none

theorem lastWrite_concat (writes : List (ℕ × BitVec 32)) (w : ℕ × BitVec 32) (reg : ℕ) :
    lastWrite (writes ++ [w]) reg = if w.1 = reg then some w.2 else lastWrite writes reg := by
  simp [lastWrite]

section Ports
variable {σ : Type} (d : Device σ)

theorem rmw_writes (reg : ℕ) (mask val : BitVec 32) (hw : Hw σ) :
    ∃ old, (rmw d reg mask val hw).writes = hw.writes ++ [(reg, (old &&& ~~~mask) ||| val)] :=
  ⟨(d.read reg hw.dev).1, rfl⟩

theorem waitBit_writes (reg : ℕ) (mask val : BitVec 32) (timeout : ℕ) (hw : Hw σ) :
    (waitBit d reg mask val timeout hw).2.writes = hw.writes := by
  induction timeout generalizing hw with
  | zero => rfl
  | succ timeout ih =>
    rw [waitBit]
    split
    · rw [ih]
    · rfl

/-- What one turn of the loop over the ports writes. -/
theorem updatePort_writes {priv : Priv} {i : Fin numPorts} {pvid : BitVec 32} (hpvid : defaultVid priv i = .ok pvid)
    (portmask : Fin numPorts → BitVec 8) (hw : Hw σ) :
    ∃ (hw' : Hw σ) (old old' : BitVec 32), updatePort d priv portmask hw i = .ok hw' ∧
      hw'.writes = hw.writes ++ [(regPortCtrl i, (old &&& ~~~portCtrlMask) ||| portCtrlVal priv i)] ++
        [(regPortVlan i, (old' &&& ~~~portVlanMask) ||| portVlanVal priv (portmask i) pvid i)] := by
  obtain ⟨old, hctrl⟩ := rmw_writes d (regPortCtrl i) portCtrlMask (portCtrlVal priv i) hw
  obtain ⟨old', hvlan⟩ := rmw_writes d (regPortVlan i) portVlanMask (portVlanVal priv (portmask i) pvid i)
    (rmw d (regPortCtrl i) portCtrlMask (portCtrlVal priv i) hw)
  refine ⟨rmw d (regPortVlan i) portVlanMask (portVlanVal priv (portmask i) pvid i)
    (rmw d (regPortCtrl i) portCtrlMask (portCtrlVal priv i) hw), old, old', ?_, ?_⟩
  · rw [updatePort, hpvid]
    rfl
  · rw [hvlan, hctrl]

/-- The registers of the ports are all different. -/
theorem port_registers (i j : Fin numPorts) : regPortCtrl j ≠ regPortVlan i ∧ (j ≠ i → regPortVlan j ≠ regPortVlan i) := by
  revert i j
  decide

/-- The ports that are updated, in any order: the last write to the VLAN register of each, and no other
registers. -/
theorem updatePorts_writes {priv : Priv} {pvid : Fin numPorts → BitVec 32} (hpvid : ∀ i, defaultVid priv i = .ok (pvid i))
    (portmask : Fin numPorts → BitVec 8) (ports : List (Fin numPorts)) (hnodup : ports.Nodup) (hw : Hw σ) :
    ∃ (hw' : Hw σ) (more : List (ℕ × BitVec 32)), ports.foldlM (updatePort d priv portmask) hw = .ok hw' ∧
      hw'.writes = hw.writes ++ more ∧ (∀ w ∈ more, ∃ i : Fin numPorts, w.1 = regPortCtrl i ∨ w.1 = regPortVlan i) ∧
      (∀ i, i ∉ ports → lastWrite hw'.writes (regPortVlan i) = lastWrite hw.writes (regPortVlan i)) ∧
      ∀ i ∈ ports, ∃ old, lastWrite hw'.writes (regPortVlan i) =
        some ((old &&& ~~~portVlanMask) ||| portVlanVal priv (portmask i) (pvid i) i) := by
  induction ports generalizing hw with
  | nil => exact ⟨hw, [], rfl, by simp, by simp, by simp, by simp⟩
  | cons i ports ih =>
    obtain ⟨hi, hrest⟩ := List.nodup_cons.mp hnodup
    obtain ⟨hw₁, old, old', hstep, hwrites⟩ := updatePort_writes d (hpvid i) portmask hw
    obtain ⟨hw', more, hfold, hmore, hregs, hother, hports⟩ := ih hrest hw₁
    refine ⟨hw', [(regPortCtrl i, (old &&& ~~~portCtrlMask) ||| portCtrlVal priv i),
      (regPortVlan i, (old' &&& ~~~portVlanMask) ||| portVlanVal priv (portmask i) (pvid i) i)] ++ more, ?_, ?_, ?_, ?_, ?_⟩
    · rw [List.foldlM_cons, hstep]
      exact hfold
    · rw [hmore, hwrites, List.append_assoc, List.append_assoc]
      rfl
    · intro w hw
      rcases List.mem_append.mp hw with hw | hw
      · rw [List.mem_cons, List.mem_singleton] at hw
        rcases hw with rfl | rfl
        · exact ⟨i, Or.inl rfl⟩
        · exact ⟨i, Or.inr rfl⟩
      · exact hregs w hw
    · intro k hk
      obtain ⟨hki, hkp⟩ := not_or.mp (fun h => hk (List.mem_cons.mpr h))
      rw [hother k hkp, hwrites, lastWrite_concat, if_neg ((port_registers k i).2 (Ne.symm hki)), lastWrite_concat,
        if_neg (port_registers k i).1]
    · intro k hk
      rcases List.mem_cons.mp hk with rfl | hk
      · exact ⟨old', by rw [hother k hi, hwrites, lastWrite_concat, if_pos rfl]⟩
      · exact hports k hk

end Ports

/-! ## Destination masks -/

theorem getLsbD_addVlan (vp : BitVec 8) (portmask : Fin numPorts → BitVec 8) (i : Fin numPorts) (j : ℕ) :
    (addVlan vp portmask i).getLsbD j =
      ((portmask i).getLsbD j || (vp.getLsbD i && vp.getLsbD j && !decide (i.val = j))) := by
  have hi : i.val < 8 := lt_trans i.isLt (by decide)
  rw [addVlan, bit]
  by_cases hmember : vp.getLsbD i = true
  · rw [if_pos ((and_twoPow_ne_zero_iff vp i).mpr hmember), BitVec.getLsbD_or, getLsbD_and_not_twoPow vp i j hi, hmember]
    simp
  · rw [if_neg (mt (and_twoPow_ne_zero_iff vp i).mp hmember)]
    simp [hmember]

/-- What the loop over the VLANs adds to the destination masks. -/
theorem getLsbD_loadVlans {σ : Type} (d : Device σ) (priv : Priv) (vlans : List (Fin numVlans))
    (s : (Fin numPorts → BitVec 8) × Hw σ) (i : Fin numPorts) (j : ℕ) :
    ((vlans.foldl (loadVlan d priv) s).1 i).getLsbD j = true ↔ (s.1 i).getLsbD j = true ∨
      (i.val ≠ j ∧ ∃ v ∈ vlans, (priv.vlanTable v).getLsbD i = true ∧ (priv.vlanTable v).getLsbD j = true) := by
  induction vlans generalizing s with
  | nil => simp
  | cons v vlans ih =>
    rw [List.foldl_cons, ih, loadVlan]
    by_cases hempty : priv.vlanTable v = 0
    · simp [hempty]
    · simp only [if_neg hempty, getLsbD_addVlan, Bool.or_eq_true, Bool.and_eq_true, Bool.not_eq_true',
        decide_eq_false_iff_not, List.mem_cons, exists_eq_or_imp]
      tauto

/-- The value for a VLAN register: the destination mask is in its field. -/
theorem getLsbD_destPorts (priv : Priv) (portmask vid : BitVec 8) (i : Fin numPorts) (old : BitVec 32) (j : ℕ)
    (hj : j < 8) :
    ((old &&& ~~~portVlanMask) ||| portVlanVal priv portmask (vid.setWidth 32) i).getLsbD (portVlanDestPortsS + j) =
      portmask.getLsbD j := by
  have hmask : ∀ j < 8, portVlanMask.getLsbD (portVlanDestPortsS + j) = true := by decide
  have hmode : ∀ (b : Bool), ∀ j < 8,
      ((if b then inPortFallback else inSecure) <<< portVlanModeS).getLsbD (portVlanDestPortsS + j) = false := by decide
  rw [getLsbD_replace _ _ _ (hmask j hj), portVlanVal, BitVec.getLsbD_or, BitVec.getLsbD_or, hmode _ j hj]
  have hvid : vid.getLsbD (portVlanDestPortsS + j) = false := BitVec.getLsbD_of_ge _ _ (by rw [portVlanDestPortsS]; omega)
  have hlt : portVlanDestPortsS + j < 32 := by rw [portVlanDestPortsS]; omega
  simp [hvid, hlt]

/-! ## Operations of the translation unit -/

/-- Whenever the driver waits for the translation unit, it becomes ready in time. -/
def NeverTimesOut {σ : Type} (d : Device σ) : Prop := ∀ hw : Hw σ, (waitBit d regVtu vtuActive 0 20 hw).1 = false

/-- A write as the translation unit takes it, with the data register and the loads so far: an id and members. -/
def vtuStep (s : BitVec 32 × List (BitVec 12 × BitVec 10)) (w : ℕ × BitVec 32) :
    BitVec 32 × List (BitVec 12 × BitVec 10) :=
  if w.1 = regVtuData then (w.2, s.2)
  else if w.1 = regVtu ∧ w.2 &&& vtuOpMask = vtuOpLoad then
    (s.1, s.2 ++ [(w.2.extractLsb' vtuVidS 12, s.1.extractLsb' 0 10)])
  else s

/-- The loads that a history of writes makes. -/
def vtuLoads (writes : List (ℕ × BitVec 32)) : List (BitVec 12 × BitVec 10) := (writes.foldl vtuStep (0, [])).2

/-- A word that loads a VLAN, and the data for it. -/
theorem load_word (vid vp : BitVec 8) :
    (vtuOpLoad ||| vid.setWidth 32 <<< vtuVidS) &&& vtuOpMask = vtuOpLoad ∧
    (vtuOpLoad ||| vid.setWidth 32 <<< vtuVidS ||| vtuActive) &&& vtuOpMask = vtuOpLoad ∧
    (vtuOpLoad ||| vid.setWidth 32 <<< vtuVidS ||| vtuActive).extractLsb' vtuVidS 12 = vid.setWidth 12 ∧
    ((vp.setWidth 32 &&& vtudataMember) ||| vtudataValid).extractLsb' 0 10 = vp.setWidth 10 := by
  have hvid : ∀ vid : BitVec 8, (vtuOpLoad ||| vid.setWidth 32 <<< vtuVidS) &&& vtuOpMask = vtuOpLoad ∧
      (vtuOpLoad ||| vid.setWidth 32 <<< vtuVidS ||| vtuActive) &&& vtuOpMask = vtuOpLoad ∧
      (vtuOpLoad ||| vid.setWidth 32 <<< vtuVidS ||| vtuActive).extractLsb' vtuVidS 12 = vid.setWidth 12 := by decide
  have hvp : ∀ vp : BitVec 8,
      ((vp.setWidth 32 &&& vtudataMember) ||| vtudataValid).extractLsb' 0 10 = vp.setWidth 10 := by decide
  exact ⟨(hvid vid).1, (hvid vid).2.1, (hvid vid).2.2, hvp vp⟩

/-- The loads of the VLANs with members. -/
def membersLoaded (priv : Priv) (vlans : List (Fin numVlans)) : List (BitVec 12 × BitVec 10) :=
  vlans.filterMap fun v =>
    if priv.vlanTable v = 0 then none else some ((priv.vlanId v).setWidth 12, (priv.vlanTable v).setWidth 10)

section Loads
variable {σ : Type} {d : Device σ}

/-- What is written for a VLAN with members. -/
def loadWrites (vid vp : BitVec 8) : List (ℕ × BitVec 32) :=
  [(regVtuData, (vp.setWidth 32 &&& vtudataMember) ||| vtudataValid),
    (regVtu, vtuOpLoad ||| vid.setWidth 32 <<< vtuVidS ||| vtuActive)]

theorem vtuOp_load_writes (hready : NeverTimesOut d) (vid vp : BitVec 8) (hw : Hw σ) :
    (vtuOp d (vtuOpLoad ||| vid.setWidth 32 <<< vtuVidS) (vp.setWidth 32) hw).writes =
      hw.writes ++ loadWrites vid vp := by
  rw [vtuOp, hready hw]
  simp only [Bool.false_eq_true, if_false, (load_word vid vp).1, if_true, write, waitBit_writes, List.append_assoc]
  rfl

theorem vtuStep_loadWrites (vid vp : BitVec 8) (acc : BitVec 32 × List (BitVec 12 × BitVec 10)) :
    ((loadWrites vid vp).foldl vtuStep acc).2 = acc.2 ++ [(vid.setWidth 12, vp.setWidth 10)] := by
  have hregs : regVtu ≠ regVtuData := by decide
  obtain ⟨-, hop, hvid, hvp⟩ := load_word vid vp
  simp [loadWrites, vtuStep, hregs, hop, hvid, hvp]

/-- The loop over the VLANs loads those with members, one after the other. -/
theorem loadVlans_writes (hready : NeverTimesOut d) (priv : Priv) (vlans : List (Fin numVlans))
    (s : (Fin numPorts → BitVec 8) × Hw σ) :
    ∃ ops : List (ℕ × BitVec 32), (vlans.foldl (loadVlan d priv) s).2.writes = s.2.writes ++ ops ∧
      ∀ acc, (ops.foldl vtuStep acc).2 = acc.2 ++ membersLoaded priv vlans := by
  induction vlans generalizing s with
  | nil => exact ⟨[], by simp, by simp [membersLoaded]⟩
  | cons v vlans ih =>
    obtain ⟨ops, hwrites, hloads⟩ := ih (loadVlan d priv s v)
    rw [List.foldl_cons]
    by_cases hempty : priv.vlanTable v = 0
    · rw [loadVlan, if_pos hempty] at hwrites ⊢
      refine ⟨ops, hwrites, fun acc => ?_⟩
      rw [hloads, membersLoaded, membersLoaded, List.filterMap_cons, if_pos hempty]
    · rw [loadVlan, if_neg hempty, vtuOp_load_writes hready] at hwrites
      refine ⟨loadWrites (priv.vlanId v) (priv.vlanTable v) ++ ops, ?_, fun acc => ?_⟩
      · rw [loadVlan, if_neg hempty, hwrites, List.append_assoc]
      · rw [List.foldl_append, hloads, vtuStep_loadWrites, membersLoaded, membersLoaded, List.filterMap_cons,
          if_neg hempty, List.append_assoc]
        rfl

end Loads

/-! ## VLAN mode -/

/-- The id that a port uses for frames without one. -/
theorem defaultVid_vlan {priv : Priv} (hvlan : priv.vlan = true) {i : Fin numPorts} {v : Fin numVlans}
    (hpvid : (priv.pvid i).toNat = v.val) : defaultVid priv i = .ok ((priv.vlanId v).setWidth 32) := by
  have hv : (0 : ℤ) ≤ (v.val : ℤ) ∧ (v.val : ℤ) < numVlans := ⟨Int.natCast_nonneg _, Int.ofNat_lt.mpr v.isLt⟩
  rw [defaultVid, if_pos hvlan, hpvid, index, dif_pos hv]
  rfl

section VlanMode
variable {σ : Type} (d : Device σ) (priv : Priv) (vlanOf : Fin numPorts → Fin numVlans)

/-- With pvids that name VLANs, `ar8216_hw_apply` returns; the VLAN register of each port then holds the
destination mask and the id. -/
theorem hwApply_ports (hvlan : priv.vlan = true) (hpvid : ∀ i, (priv.pvid i).toNat = (vlanOf i).val) (hw : Hw σ) :
    ∃ (hw' : Hw σ) (more : List (ℕ × BitVec 32)), hwApply d priv hw = .ok hw' ∧
      hw'.writes = (loadVlans d priv (fun _ => 0, vtuOp d vtuOpFlush 0 hw)).2.writes ++ more ∧
      (∀ w ∈ more, ∃ i : Fin numPorts, w.1 = regPortCtrl i ∨ w.1 = regPortVlan i) ∧
      ∀ i : Fin numPorts, ∃ old, lastWrite hw'.writes (regPortVlan i) = some ((old &&& ~~~portVlanMask) |||
        portVlanVal priv ((loadVlans d priv (fun _ => 0, vtuOp d vtuOpFlush 0 hw)).1 i)
          ((priv.vlanId (vlanOf i)).setWidth 32) i) := by
  obtain ⟨hw', more, hfold, hwrites, hregs, -, hports⟩ :=
    updatePorts_writes d (fun i => defaultVid_vlan hvlan (hpvid i))
      (loadVlans d priv (fun _ => 0, vtuOp d vtuOpFlush 0 hw)).1 (List.finRange numPorts) (List.nodup_finRange _)
      (loadVlans d priv (fun _ => 0, vtuOp d vtuOpFlush 0 hw)).2
  refine ⟨hw', more, ?_, hwrites, hregs, fun i => hports i (List.mem_finRange i)⟩
  rw [hwApply, if_pos hvlan]
  exact hfold

end VlanMode

end Neufbox.Ar8216
