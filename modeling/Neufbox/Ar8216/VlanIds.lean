import Neufbox.Ar8216.Isolation

/-! # Ids of VLANs

The ids of the VLANs are kept in a table of bytes, though the attribute takes values up to 4095 and the
registers have twelve bits for them. An id from 256 on is cut: the registers then hold another one. -/
namespace Neufbox.Ar8216
open Neufbox.Swconfig Neufbox.Library.Bits
set_option autoImplicit false
set_option maxHeartbeats 250000
set_option maxRecDepth 120000

/-! ## Histories -/

inductive Op
  | setVid (vlan : ℤ) (i : BitVec 32)
  | setPorts (val : SwitchVal)
  | setPvid (port vlan : ℤ)
  | reset

/-- Numbers of VLANs and ports that exist, and ids in the range of the attribute. -/
def Op.Valid : Op → Prop
  | .setVid vlan i => (0 ≤ vlan ∧ vlan < numVlans) ∧ i.toNat ≤ 4095
  | .setPorts val => Ar8216.Valid val
  | .setPvid port vlan => (0 ≤ port ∧ port < numPorts) ∧ 0 ≤ vlan ∧ vlan < numVlans
  | .reset => True

def step {σ : Type} (d : Device σ) (s : State σ) : Op → Except OutOfRange (State σ)
  | .setVid vlan i => do
    let priv ← Ar8216.setVid vlan i s.priv
    pure { s with priv := priv }
  | .setPorts val => do
    let priv ← Ar8216.setPorts val s.priv
    pure { s with priv := priv }
  | .setPvid port vlan => do
    let priv ← Ar8216.setPvid port vlan s.priv
    pure { s with priv := priv }
  | .reset => do
    let r ← resetSwitch d s.hw
    pure ⟨r.1, r.2⟩

/-- Operations behind the initial reset of the driver. -/
def history {σ : Type} (d : Device σ) (hw : Hw σ) (ops : List Op) : Except OutOfRange (State σ) := do
  let r ← resetSwitch d hw
  ops.foldlM (step d) ⟨r.1, r.2⟩

/-- The ids that were asked for: the last one since the last reset, or the index of the VLAN. -/
def idsSet (ids : Fin numVlans → ℕ) : Op → Fin numVlans → ℕ
  | .setVid vlan i => fun v => if vlan = v.val then i.toNat else ids v
  | .reset => fun v => v.val
  | _ => ids

def lastIds (ops : List Op) : Fin numVlans → ℕ := ops.foldl idsSet fun v => v.val

/-! ## The tables behind a history -/

/-- The table holds the low bytes of the ids, and pvids name VLANs. -/
structure Tracks (ids : Fin numVlans → ℕ) (priv : Priv) : Prop where
  vlanId : ∀ v, priv.vlanId v = BitVec.ofNat 8 (ids v)
  pvids : ∀ i, (priv.pvid i).toNat < numVlans
  range : ∀ v, ids v ≤ 4095

theorem tracks_cleared : Tracks (fun v => v.val) cleared := by
  refine ⟨fun v => rfl, fun i => ?_, fun v => ?_⟩
  · simp [cleared, numVlans]
  · exact le_of_lt (lt_trans v.isLt (by decide))

theorem exists_fin {n : ℕ} {z : ℤ} (h : 0 ≤ z ∧ z < n) : ∃ i : Fin n, z = i.val :=
  ⟨⟨z.toNat, (Int.toNat_lt h.1).mpr h.2⟩, (Int.toNat_of_nonneg h.1).symm⟩

section Tables
variable {ids : Fin numVlans → ℕ} {priv : Priv}

theorem enterAll_vlanId (v : Fin numVlans) (ports : List SwitchPort) (priv : Priv) :
    (enterAll v ports priv).vlanId = priv.vlanId := by
  induction ports generalizing priv with
  | nil => rfl
  | cons p ports ih => exact ih _

theorem enterAll_pvids (v : Fin numVlans) (ports : List SwitchPort) (h : ∀ i, (priv.pvid i).toNat < numVlans)
    (i : Fin numPorts) : ((enterAll v ports priv).pvid i).toNat < numVlans := by
  induction ports generalizing priv with
  | nil => exact h i
  | cons p ports ih =>
    refine ih fun k => ?_
    rw [pvid_enter]
    split
    · rw [vlan_toNat]
      exact v.isLt
    · exact h k

theorem Tracks.setPorts (h : Tracks ids priv) {val : SwitchVal} (hval : Valid val) :
    ∃ priv', setPorts val priv = .ok priv' ∧ Tracks ids priv' := by
  refine ⟨_, setPorts_ok hval priv, fun v => ?_, enterAll_pvids _ _ h.pvids, h.range⟩
  rw [enterAll_vlanId]
  exact h.vlanId v

theorem Tracks.setVid (h : Tracks ids priv) {vlan : ℤ} {i : BitVec 32} (hvlan : 0 ≤ vlan ∧ vlan < numVlans)
    (hi : i.toNat ≤ 4095) :
    ∃ priv', setVid vlan i priv = .ok priv' ∧ Tracks (idsSet ids (.setVid vlan i)) priv' := by
  obtain ⟨v, hv⟩ := exists_fin hvlan
  refine ⟨{ priv with vlanId := Function.update priv.vlanId v (i.setWidth 8) }, ?_, fun w => ?_, h.pvids, fun w => ?_⟩
  · rw [hv, Ar8216.setVid, index_natCast .vlanId v.isLt]
    rfl
  · simp only [idsSet, hv, Nat.cast_inj]
    by_cases hw : w = v
    · rw [hw, Function.update_self, if_pos rfl]
      exact (BitVec.ofNat_toNat 8 i).symm
    · rw [Function.update_of_ne hw, if_neg (fun e => hw (Fin.ext e.symm)), h.vlanId w]
  · simp only [idsSet]
    split
    · exact hi
    · exact h.range w

theorem Tracks.setPvid (h : Tracks ids priv) {port vlan : ℤ} (hport : 0 ≤ port ∧ port < numPorts)
    (hvlan : 0 ≤ vlan ∧ vlan < numVlans) : ∃ priv', setPvid port vlan priv = .ok priv' ∧ Tracks ids priv' := by
  obtain ⟨i, hi⟩ := exists_fin hport
  obtain ⟨v, hv⟩ := exists_fin hvlan
  refine ⟨{ priv with pvid := Function.update priv.pvid i (BitVec.ofInt 16 vlan) }, ?_, h.vlanId, fun k => ?_, h.range⟩
  · rw [hi]
    exact setPvid_ok i vlan priv
  by_cases hk : k = i
  · have hword : BitVec.ofInt 16 vlan = BitVec.ofNat 16 v := by rw [hv, BitVec.ofInt_natCast]
    simp only [hk, Function.update_self, hword, vlan_toNat]
    exact v.isLt
  · simp only [Function.update_of_ne hk]
    exact h.pvids k

end Tables

theorem step_tracks {σ : Type} (d : Device σ) {ids : Fin numVlans → ℕ} {s : State σ} (h : Tracks ids s.priv) {op : Op}
    (hop : op.Valid) : ∃ s', step d s op = .ok s' ∧ Tracks (idsSet ids op) s'.priv := by
  cases op with
  | setVid vlan i =>
    obtain ⟨priv, hset, htracks⟩ := h.setVid hop.1 hop.2
    exact ⟨{ s with priv := priv }, by rw [step, hset]; rfl, htracks⟩
  | setPorts val =>
    obtain ⟨priv, hset, htracks⟩ := h.setPorts hop
    exact ⟨{ s with priv := priv }, by rw [step, hset]; rfl, htracks⟩
  | setPvid port vlan =>
    obtain ⟨priv, hset, htracks⟩ := h.setPvid hop.1 hop.2
    exact ⟨{ s with priv := priv }, by rw [step, hset]; rfl, htracks⟩
  | reset =>
    obtain ⟨hw, hreset⟩ := resetSwitch_ok d s.hw
    exact ⟨⟨cleared, hw⟩, by rw [step, hreset]; rfl, tracks_cleared⟩

theorem run_tracks {σ : Type} (d : Device σ) {ids : Fin numVlans → ℕ} {s : State σ} (h : Tracks ids s.priv)
    (ops : List Op) (hops : ∀ op ∈ ops, op.Valid) :
    ∃ s', ops.foldlM (step d) s = .ok s' ∧ Tracks (ops.foldl idsSet ids) s'.priv := by
  induction ops generalizing ids s with
  | nil => exact ⟨s, rfl, h⟩
  | cons op ops ih =>
    obtain ⟨s₁, hstep, htracks⟩ := step_tracks d h (hops op List.mem_cons_self)
    obtain ⟨s', hrun, hend⟩ := ih htracks fun op hop => hops op (List.mem_cons_of_mem _ hop)
    refine ⟨s', ?_, hend⟩
    rw [List.foldlM_cons, hstep]
    exact hrun

theorem history_tracks {σ : Type} (d : Device σ) (hw : Hw σ) (ops : List Op) (hops : ∀ op ∈ ops, op.Valid) :
    ∃ s, history d hw ops = .ok s ∧ Tracks (lastIds ops) s.priv := by
  obtain ⟨hw₀, hreset⟩ := resetSwitch_ok d hw
  obtain ⟨s, hrun, htracks⟩ := run_tracks d (s := ⟨cleared, hw₀⟩) tracks_cleared ops hops
  refine ⟨s, ?_, htracks⟩
  rw [history, hreset]
  exact hrun

/-! ## Ids in the registers -/

/-- In VLAN mode the translation unit is loaded once for each VLAN with members, with the given id of the VLAN
and its members, and each port gets the id of the VLAN that its pvid names. -/
def IdsReach {σ : Type} (d : Device σ) (s : State σ) (ids : Fin numVlans → ℕ) : Prop :=
  ∃ hw' more, hwApply d (setVlan 1 s.priv) s.hw = .ok hw' ∧ hw'.writes = s.hw.writes ++ more ∧
    (vtuLoads more).map (fun load => (load.1.toNat, load.2)) =
      (List.finRange numVlans).filterMap (fun v =>
        if s.priv.vlanTable v = 0 then none else some (ids v, (s.priv.vlanTable v).setWidth 10)) ∧
    ∀ i : Fin numPorts, ∃ (val : BitVec 32) (v : Fin numVlans), lastWrite hw'.writes (regPortVlan i) = some val ∧
      (s.priv.pvid i).toNat = v.val ∧ (val.extractLsb' 0 12).toNat = ids v

theorem extract_defaultId (priv : Priv) (portmask vid : BitVec 8) (i : Fin numPorts) (old : BitVec 32) :
    ((old &&& ~~~portVlanMask) ||| portVlanVal priv portmask (vid.setWidth 32) i).extractLsb' 0 12 = vid.setWidth 12 := by
  have hmask : ∀ j < 12, portVlanMask.getLsbD j = true := by decide
  have hmode : ∀ (b : Bool), ∀ j < 12, ((if b then inPortFallback else inSecure) <<< portVlanModeS).getLsbD j = false := by
    decide
  refine BitVec.eq_of_getLsbD_eq fun j hj => ?_
  rw [BitVec.getLsbD_extractLsb', Nat.zero_add, getLsbD_replace _ _ _ (hmask j hj), portVlanVal, BitVec.getLsbD_or,
    BitVec.getLsbD_or, hmode _ j hj, BitVec.getLsbD_shiftLeft]
  have hdest : j < portVlanDestPortsS := by rw [portVlanDestPortsS]; omega
  simp [hdest, hj]
  omega

/-- Lists of loads that differ in the ids only. -/
theorem loads_eq_iff (table : Fin numVlans → BitVec 8) (f g : Fin numVlans → ℕ) (vlans : List (Fin numVlans)) :
    (vlans.filterMap fun v => if table v = 0 then none else some (f v, (table v).setWidth 10)) =
      (vlans.filterMap fun v => if table v = 0 then none else some (g v, (table v).setWidth 10)) ↔
      ∀ v ∈ vlans, table v ≠ 0 → f v = g v := by
  induction vlans with
  | nil => simp
  | cons v vlans ih =>
    rw [List.forall_mem_cons, List.filterMap_cons, List.filterMap_cons]
    by_cases hempty : table v = 0
    · simp only [if_pos hempty, ih]
      exact ⟨fun h => ⟨fun hne => absurd hempty hne, h⟩, fun h => h.2⟩
    · simp only [if_neg hempty, List.cons.injEq, Prod.mk.injEq, and_true, ih]
      exact ⟨fun h => ⟨fun _ => h.1, h.2⟩, fun h => ⟨h.1 hempty, h.2⟩⟩

theorem membersLoaded_map (priv : Priv) (vlans : List (Fin numVlans)) :
    (membersLoaded priv vlans).map (fun load => (load.1.toNat, load.2)) = vlans.filterMap fun v =>
      if priv.vlanTable v = 0 then none
      else some (((priv.vlanId v).setWidth 12).toNat, (priv.vlanTable v).setWidth 10) := by
  induction vlans with
  | nil => rfl
  | cons v vlans ih =>
    rw [membersLoaded, List.filterMap_cons, List.filterMap_cons]
    by_cases hempty : priv.vlanTable v = 0
    · simp only [if_pos hempty]
      exact ih
    · simp only [if_neg hempty, List.map_cons]
      rw [← ih]
      rfl

section Apply
variable {σ : Type} {d : Device σ}

theorem vtuOp_flush_writes (hready : NeverTimesOut d) (hw : Hw σ) :
    (vtuOp d vtuOpFlush 0 hw).writes = hw.writes ++ [(regVtu, vtuOpFlush ||| vtuActive)] := by
  have hop : vtuOpFlush &&& vtuOpMask ≠ vtuOpLoad := by decide
  rw [vtuOp, hready hw]
  simp only [Bool.false_eq_true, if_false, hop, write, waitBit_writes]

/-- The registers of the ports are not those of the translation unit. -/
theorem vtuStep_ports (more : List (ℕ × BitVec 32))
    (hmore : ∀ w ∈ more, ∃ i : Fin numPorts, w.1 = regPortCtrl i ∨ w.1 = regPortVlan i)
    (acc : BitVec 32 × List (BitVec 12 × BitVec 10)) : more.foldl vtuStep acc = acc := by
  have hregs : ∀ i : Fin numPorts, (regPortCtrl i ≠ regVtuData ∧ regPortCtrl i ≠ regVtu) ∧
      regPortVlan i ≠ regVtuData ∧ regPortVlan i ≠ regVtu := by decide
  induction more generalizing acc with
  | nil => rfl
  | cons w more ih =>
    have hstep : vtuStep acc w = acc := by
      obtain ⟨i, hi | hi⟩ := hmore w List.mem_cons_self
      · simp [vtuStep, hi, (hregs i).1]
      · simp [vtuStep, hi, (hregs i).2]
    rw [List.foldl_cons, hstep]
    exact ih (fun w hw => hmore w (List.mem_cons_of_mem _ hw)) acc

/-- The loads and the ids of the ports are those of the driver's table. -/
theorem hwApply_ids (hready : NeverTimesOut d) (priv : Priv) (vlanOf : Fin numPorts → Fin numVlans)
    (hvlan : priv.vlan = true) (hpvid : ∀ i, (priv.pvid i).toNat = (vlanOf i).val) (hw : Hw σ) :
    ∃ hw' more, hwApply d priv hw = .ok hw' ∧ hw'.writes = hw.writes ++ more ∧
      vtuLoads more = membersLoaded priv (List.finRange numVlans) ∧
      ∀ i : Fin numPorts, ∃ val, lastWrite hw'.writes (regPortVlan i) = some val ∧
        val.extractLsb' 0 12 = (priv.vlanId (vlanOf i)).setWidth 12 := by
  obtain ⟨hw', more, happly, hwrites, hregs, hports⟩ := hwApply_ports d priv vlanOf hvlan hpvid hw
  obtain ⟨ops, hops, hloads⟩ := loadVlans_writes hready priv (List.finRange numVlans)
    (fun _ => 0, vtuOp d vtuOpFlush 0 hw)
  refine ⟨hw', [(regVtu, vtuOpFlush ||| vtuActive)] ++ ops ++ more, happly, ?_, ?_, fun i => ?_⟩
  · rw [hwrites, loadVlans, hops, vtuOp_flush_writes hready, List.append_assoc, List.append_assoc, List.append_assoc]
  · rw [vtuLoads, List.foldl_append, vtuStep_ports more hregs, List.foldl_append, hloads]
    rfl
  · obtain ⟨old, hlast⟩ := hports i
    exact ⟨_, hlast, extract_defaultId priv _ _ i old⟩

end Apply

theorem low_byte_iff {n : ℕ} : (BitVec.ofNat 8 n).toNat = n ↔ n < 256 := by
  rw [BitVec.toNat_ofNat]
  exact ⟨fun h => h ▸ Nat.mod_lt n (by decide), fun h => Nat.mod_eq_of_lt h⟩

/-- The ids reach the hardware exactly when those of the VLANs in use are below 256. -/
theorem idsReach_iff {σ : Type} {d : Device σ} (hready : NeverTimesOut d) {ids : Fin numVlans → ℕ} {s : State σ}
    (htracks : Tracks ids s.priv) :
    IdsReach d s ids ↔ ∀ v, s.priv.vlanTable v ≠ 0 ∨ (∃ i, (s.priv.pvid i).toNat = v.val) → ids v < 256 := by
  obtain ⟨hw', more, happly, hwrites, hloads, hports⟩ := hwApply_ids hready (setVlan 1 s.priv)
    (fun i => ⟨(s.priv.pvid i).toNat, htracks.pvids i⟩) rfl (fun i => rfl) s.hw
  have hids : ∀ v, ((s.priv.vlanId v).setWidth 12).toNat = ids v ↔ ids v < 256 := by
    intro v
    rw [BitVec.toNat_setWidth_of_le (by decide), htracks.vlanId v]
    exact low_byte_iff
  have hsame : (vtuLoads more).map (fun load => (load.1.toNat, load.2)) =
      (List.finRange numVlans).filterMap (fun v =>
        if s.priv.vlanTable v = 0 then none else some (ids v, (s.priv.vlanTable v).setWidth 10)) ↔
      ∀ v ∈ List.finRange numVlans, s.priv.vlanTable v ≠ 0 → ((s.priv.vlanId v).setWidth 12).toNat = ids v := by
    rw [hloads, membersLoaded_map]
    exact loads_eq_iff s.priv.vlanTable _ _ _
  refine ⟨?_, fun hsmall => ?_⟩
  · rintro ⟨hw₁, more₁, happly₁, hwrites₁, hloads₁, hports₁⟩
    obtain rfl : hw₁ = hw' := Except.ok.inj (happly₁.symm.trans happly)
    obtain rfl : more₁ = more := List.append_cancel_left (hwrites₁.symm.trans hwrites)
    rintro v (hmembers | ⟨i, hi⟩)
    · exact (hids v).mp (hsame.mp hloads₁ v (List.mem_finRange v) hmembers)
    · obtain ⟨val, w, hlast, hw, hval⟩ := hports₁ i
      obtain ⟨val', hlast', hval'⟩ := hports i
      obtain rfl : val = val' := Option.some.inj (hlast.symm.trans hlast')
      obtain rfl : w = v := Fin.ext (hw.symm.trans hi)
      have hvlan : (⟨(s.priv.pvid i).toNat, htracks.pvids i⟩ : Fin numVlans) = w := Fin.ext hi
      rw [hval', hvlan] at hval
      exact (hids w).mp hval
  · refine ⟨hw', more, happly, hwrites, ?_, fun i => ?_⟩
    · exact hsame.mpr fun v _ hmembers => (hids v).mpr (hsmall v (Or.inl hmembers))
    · obtain ⟨val, hlast, hval⟩ := hports i
      refine ⟨val, ⟨(s.priv.pvid i).toNat, htracks.pvids i⟩, hlast, rfl, ?_⟩
      rw [hval]
      exact (hids _).mpr (hsmall _ (Or.inr ⟨i, rfl⟩))

/-- Behind a history, the ids that were set last reach the hardware exactly when those of the VLANs in use are
below 256. -/
theorem ar8216_vids_reach_iff {σ : Type} {d : Device σ} (hready : NeverTimesOut d) (hw : Hw σ) (ops : List Op)
    (hops : ∀ op ∈ ops, op.Valid) :
    ∃ s, history d hw ops = .ok s ∧
      (IdsReach d s (lastIds ops) ↔
        ∀ v, s.priv.vlanTable v ≠ 0 ∨ (∃ i, (s.priv.pvid i).toNat = v.val) → lastIds ops v < 256) := by
  obtain ⟨s, hrun, htracks⟩ := history_tracks d hw ops hops
  exact ⟨s, hrun, idsReach_iff hready htracks⟩

theorem silent_ready : NeverTimesOut silent := by
  intro hw
  simp [waitBit, silent]

/-- VLAN 1 gets an id and members. -/
def withId (i : BitVec 32) : List Op := [.setVid 1 i, .setPorts lan]

theorem withId_valid {i : BitVec 32} (hi : i.toNat ≤ 4095) : ∀ op ∈ withId i, op.Valid := by
  rw [withId, List.forall_mem_cons, List.forall_mem_singleton]
  exact ⟨⟨by decide, hi⟩, by decide, by decide⟩

theorem ar8216_vids_reach_small :
    ∃ s, history silent ⟨(), []⟩ (withId 100) = .ok s ∧ IdsReach silent s (lastIds (withId 100)) := by
  obtain ⟨s, hrun, hiff⟩ := ar8216_vids_reach_iff silent_ready ⟨(), []⟩ (withId 100) (withId_valid (by decide))
  have hsmall : ∀ v, lastIds (withId 100) v < 256 := by decide
  exact ⟨s, hrun, hiff.mpr fun v _ => hsmall v⟩

def vlanOne : Fin numVlans := ⟨1, by decide⟩

/-- The id 300 reaches the switch as 44. -/
theorem ar8216_vid_cut :
    ∃ s, history silent ⟨(), []⟩ (withId 300) = .ok s ∧ ¬ IdsReach silent s (lastIds (withId 300)) := by
  obtain ⟨s, hrun, htracks⟩ := history_tracks silent ⟨(), []⟩ (withId 300) (withId_valid (by decide))
  have hmembers : (history silent ⟨(), []⟩ (withId 300)).toOption.map (fun s => s.priv.vlanTable vlanOne) = some 7 := by
    decide
  rw [hrun] at hmembers
  have htable : s.priv.vlanTable vlanOne = 7 := Option.some.inj hmembers
  refine ⟨s, hrun, fun h => ?_⟩
  have hsmall := (idsReach_iff silent_ready htracks).mp h vlanOne (Or.inl (by rw [htable]; decide))
  exact absurd hsmall (by decide)

end Neufbox.Ar8216
