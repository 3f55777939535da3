import Neufbox.Ar8216.Apply

/-! # Separation of VLANs

Whatever ports are put into whatever VLANs behind a reset, a port that is not tagged is in one VLAN at most,
the one that its pvid names. The destination masks that are then written connect exactly the ports that share
a VLAN. -/
namespace Neufbox.Ar8216
open Neufbox.Swconfig Neufbox.Library.Bits
set_option autoImplicit false
set_option maxHeartbeats 250000
set_option maxRecDepth 120000

/-! ## One entry of a port list -/

/-- The driver's test of the flags finds what the parser has set. -/
theorem flags_driver (p : SwitchPort) : flags p &&& 1 <<< flagTagged ≠ 0 ↔ p.tagged = true := by
  rw [flags]
  cases p.tagged <;> decide

def Member (priv : Priv) (v : Fin numVlans) (i : Fin numPorts) : Prop := (priv.vlanTable v).getLsbD i = true

def Tagged (priv : Priv) (i : Fin numPorts) : Prop := priv.vlanTagged.getLsbD i = true

theorem port_lt_eight (i : Fin numPorts) : i.val < 8 := lt_trans i.isLt (by decide)

/-- What a turn of the loop leaves behind, for a port that exists. -/
def enter (v : Fin numVlans) (priv : Priv) (i : Fin numPorts) (tagged : Bool) : Priv :=
  { priv with
    vlanTagged := if tagged then priv.vlanTagged ||| bit i else priv.vlanTagged &&& ~~~bit i
    pvid := if tagged then priv.pvid else Function.update priv.pvid i (BitVec.ofNat 16 v)
    vlanTable := fun j => if j = v then priv.vlanTable v ||| bit i
      else if tagged then priv.vlanTable j else priv.vlanTable j &&& ~~~bit i }

theorem index_natCast (table : Table) {size n : ℕ} (h : n < size) : index table size n = .ok ⟨n, h⟩ := by
  rw [index, dif_pos ⟨Int.natCast_nonneg n, Int.ofNat_lt.mpr h⟩]
  rfl

theorem setPvid_ok (i : Fin numPorts) (vlan : ℤ) (priv : Priv) :
    setPvid i.val vlan priv = .ok { priv with pvid := Function.update priv.pvid i (BitVec.ofInt 16 vlan) } := by
  rw [setPvid, index_natCast .pvid i.isLt]
  rfl

theorem setPort_ok (v : Fin numVlans) (priv : Priv) (p : SwitchPort) (hid : p.id.toNat < numPorts) :
    setPort v.val v priv p = .ok (enter v priv ⟨p.id.toNat, hid⟩ p.tagged) := by
  rw [setPort]
  cases htagged : p.tagged with
  | true =>
    rw [if_pos ((flags_driver p).mpr htagged)]
    simp only [enter, pure_bind, if_true]
    refine congrArg Except.ok ?_
    simp only [Priv.mk.injEq, true_and]
    refine ⟨?_, trivial⟩
    funext j
    by_cases hj : j = v <;> simp [hj]
  | false =>
    rw [if_neg (mt (flags_driver p).mp (by rw [htagged]; decide))]
    have hpvid := setPvid_ok ⟨p.id.toNat, hid⟩ v.val { priv with vlanTagged := priv.vlanTagged &&& ~~~bit p.id.toNat }
    simp only at hpvid
    rw [hpvid]
    refine congrArg Except.ok ?_
    simp only [enter, Priv.mk.injEq, true_and]
    refine ⟨?_, rfl, ?_⟩
    · funext j
      by_cases hj : j = v <;> simp [hj]
    · simp

section Enter
variable (v : Fin numVlans) (priv : Priv) (i k : Fin numPorts) (tagged : Bool)

theorem tagged_enter : Tagged (enter v priv i tagged) k ↔ if k = i then tagged = true else Tagged priv k := by
  have hi := port_lt_eight i
  rw [Tagged, Tagged, enter]
  cases tagged
  · by_cases hk : k = i
    · simp [hk, bit, getLsbD_and_not_twoPow _ _ _ hi]
    · simp [hk, bit, getLsbD_and_not_twoPow _ _ _ hi, Fin.ext_iff.not.mp (Ne.symm hk)]
  · by_cases hk : k = i
    · simp [hk, bit, getLsbD_or_twoPow _ _ _ hi]
    · simp [hk, bit, getLsbD_or_twoPow _ _ _ hi, Fin.ext_iff.not.mp (Ne.symm hk)]

theorem member_enter (w : Fin numVlans) :
    Member (enter v priv i tagged) w k ↔
      if k = i then w = v ∨ tagged = true ∧ Member priv w i else Member priv w k := by
  have hi := port_lt_eight i
  rw [Member, Member, Member, enter]
  by_cases hw : w = v
  · by_cases hk : k = i
    · simp [hw, hk, bit, getLsbD_or_twoPow _ _ _ hi]
    · simp [hw, hk, bit, getLsbD_or_twoPow _ _ _ hi, Fin.ext_iff.not.mp (Ne.symm hk)]
  · cases tagged
    · by_cases hk : k = i
      · simp [hw, hk, bit, getLsbD_and_not_twoPow _ _ _ hi]
      · simp [hw, hk, bit, getLsbD_and_not_twoPow _ _ _ hi, Fin.ext_iff.not.mp (Ne.symm hk)]
    · by_cases hk : k = i <;> simp [hw, hk]

theorem pvid_enter :
    (enter v priv i tagged).pvid k = if k = i ∧ tagged = false then BitVec.ofNat 16 v else priv.pvid k := by
  rw [enter]
  cases tagged
  · by_cases hk : k = i <;> simp [hk]
  · simp

end Enter

/-! ## Whole port lists -/

theorem numPorts_pos : 0 < numPorts := by decide

/-- The port that an entry names, when there is one. -/
def portOf (p : SwitchPort) : Fin numPorts := ⟨p.id.toNat % numPorts, Nat.mod_lt _ numPorts_pos⟩

/-- A call with a VLAN and ports that exist. -/
structure Valid (val : SwitchVal) : Prop where
  vlan : 0 ≤ val.portVlan ∧ val.portVlan < numVlans
  ports : ∀ p ∈ portList val, p.id.toNat < numPorts

def Valid.vlanOf {val : SwitchVal} (h : Valid val) : Fin numVlans :=
  ⟨val.portVlan.toNat, (Int.toNat_lt h.vlan.1).mpr h.vlan.2⟩

/-- The entries of a list, one after the other. -/
def enterAll (v : Fin numVlans) (ports : List SwitchPort) (priv : Priv) : Priv :=
  ports.foldl (fun priv p => enter v priv (portOf p) p.tagged) priv

/-- The table of members without those of one VLAN. -/
def emptied (v : Fin numVlans) (priv : Priv) : Priv := { priv with vlanTable := Function.update priv.vlanTable v 0 }

theorem enterAll_ok (v : Fin numVlans) (ports : List SwitchPort) (hports : ∀ p ∈ ports, p.id.toNat < numPorts)
    (priv : Priv) : ports.foldlM (setPort v.val v) priv = .ok (enterAll v ports priv) := by
  induction ports generalizing priv with
  | nil => rfl
  | cons p ports ih =>
    have hid := hports p (List.mem_cons_self)
    have hport : portOf p = ⟨p.id.toNat, hid⟩ := Fin.ext (Nat.mod_eq_of_lt hid)
    rw [List.foldlM_cons, setPort_ok v priv p hid, enterAll, List.foldl_cons, hport]
    exact ih (fun q hq => hports q (List.mem_cons_of_mem p hq)) _

theorem setPorts_ok {val : SwitchVal} (h : Valid val) (priv : Priv) :
    setPorts val priv = .ok (enterAll h.vlanOf (portList val) (emptied h.vlanOf priv)) := by
  have hvlan : val.portVlan = (h.vlanOf.val : ℤ) := (Int.toNat_of_nonneg h.vlan.1).symm
  rw [setPorts, hvlan, index_natCast .vlanTable h.vlanOf.isLt]
  exact enterAll_ok h.vlanOf (portList val) h.ports _

/-! ## Separation -/

/-- A port without tags is a member of no VLAN but the one of its pvid, and pvids name VLANs. -/
structure Separated (priv : Priv) : Prop where
  untagged : ∀ i, ¬ Tagged priv i → ∀ v, Member priv v i → (priv.pvid i).toNat = v.val
  pvids : ∀ i, (priv.pvid i).toNat < numVlans

theorem separated_cleared : Separated cleared := by
  refine ⟨fun i _ v hv => ?_, fun i => ?_⟩
  · simp [Member, cleared] at hv
  · simp [cleared, numVlans]

theorem Separated.emptied {priv : Priv} (h : Separated priv) (v : Fin numVlans) : Separated (emptied v priv) := by
  refine ⟨fun i htagged w hw => h.untagged i htagged w ?_, h.pvids⟩
  by_cases hwv : w = v
  · simp [Member, Ar8216.emptied, hwv] at hw
  · simpa [Member, Ar8216.emptied, hwv] using hw

theorem vlan_toNat (v : Fin numVlans) : (BitVec.ofNat 16 v).toNat = v.val := by
  rw [BitVec.toNat_ofNat]
  exact Nat.mod_eq_of_lt (lt_trans v.isLt (by decide))

theorem Separated.enter {priv : Priv} (h : Separated priv) (v : Fin numVlans) (i : Fin numPorts) (tagged : Bool) :
    Separated (enter v priv i tagged) := by
  constructor
  · intro k htagged w hw
    rw [tagged_enter] at htagged
    rw [member_enter] at hw
    rw [pvid_enter]
    by_cases hk : k = i
    · rw [if_pos hk] at htagged hw
      have hfalse : tagged = false := by simpa using htagged
      rw [if_pos ⟨hk, hfalse⟩, vlan_toNat]
      rcases hw with rfl | ⟨htrue, -⟩
      · rfl
      · exact absurd htrue htagged
    · rw [if_neg hk] at htagged hw
      rw [if_neg (fun hand => hk hand.1)]
      exact h.untagged k htagged w hw
  · intro k
    rw [pvid_enter]
    split
    · rw [vlan_toNat]
      exact v.isLt
    · exact h.pvids k

theorem Separated.enterAll {priv : Priv} (h : Separated priv) (v : Fin numVlans) (ports : List SwitchPort) :
    Separated (enterAll v ports priv) := by
  induction ports generalizing priv with
  | nil => exact h
  | cons p ports ih => exact ih (h.enter v (portOf p) p.tagged)

/-- Calls of `ar8216_set_ports`, one after the other. -/
def setPortsCalls (calls : List SwitchVal) (priv : Priv) : Except OutOfRange Priv :=
  calls.foldlM (fun priv val => setPorts val priv) priv

theorem setPortsCalls_separated (calls : List SwitchVal) (hcalls : ∀ val ∈ calls, Valid val) {priv : Priv}
    (h : Separated priv) : ∃ priv', setPortsCalls calls priv = .ok priv' ∧ Separated priv' := by
  induction calls generalizing priv with
  | nil => exact ⟨priv, rfl, h⟩
  | cons val calls ih =>
    have hval := hcalls val List.mem_cons_self
    obtain ⟨priv', hrun, hsep⟩ := ih (fun val hv => hcalls val (List.mem_cons_of_mem _ hv))
      ((h.emptied hval.vlanOf).enterAll hval.vlanOf (portList val))
    refine ⟨priv', ?_, hsep⟩
    rw [setPortsCalls, List.foldlM_cons, setPorts_ok hval]
    exact hrun

/-! ## Destination masks -/

/-- The register of a port lets it send to another one. -/
def Reaches (writes : List (ℕ × BitVec 32)) (i j : Fin numPorts) : Prop :=
  ∃ val, lastWrite writes (regPortVlan i) = some val ∧ val.getLsbD (portVlanDestPortsS + j) = true

theorem hwApply_reaches {σ : Type} (d : Device σ) (priv : Priv) (hvlan : priv.vlan = true)
    (hpvids : ∀ i, (priv.pvid i).toNat < numVlans) (hw : Hw σ) :
    ∃ hw', hwApply d priv hw = .ok hw' ∧
      ∀ i j, Reaches hw'.writes i j ↔ i ≠ j ∧ ∃ v, Member priv v i ∧ Member priv v j := by
  obtain ⟨hw', -, happly, -, -, hports⟩ :=
    hwApply_ports d priv (fun i => ⟨(priv.pvid i).toNat, hpvids i⟩) hvlan (fun i => rfl) hw
  refine ⟨hw', happly, fun i j => ?_⟩
  obtain ⟨old, hlast⟩ := hports i
  rw [Reaches, hlast]
  simp only [Option.some.injEq, exists_eq_left', getLsbD_destPorts _ _ _ _ _ _ (port_lt_eight j), loadVlans,
    getLsbD_loadVlans, BitVec.ofNat_eq_ofNat, BitVec.getLsbD_zero, Bool.false_eq_true, false_or, List.mem_finRange,
    true_and, ne_eq, Fin.ext_iff]
  rfl

theorem hwApply_without_vlans {σ : Type} (d : Device σ) (priv : Priv) (hvlan : priv.vlan = false) (hw : Hw σ) :
    ∃ hw', hwApply d priv hw = .ok hw' := by
  have hpvid : ∀ i, defaultVid priv i = .ok (BitVec.ofNat 32 i) := by
    intro i
    rw [defaultVid, hvlan]
    rfl
  obtain ⟨hw', -, hfold, -⟩ := updatePorts_writes d hpvid cpuOnly (List.finRange numPorts) (List.nodup_finRange _)
    (vtuOp d vtuOpFlush 0 hw)
  refine ⟨hw', ?_⟩
  rw [hwApply, hvlan]
  exact hfold

theorem resetSwitch_ok {σ : Type} (d : Device σ) (hw : Hw σ) : ∃ hw', resetSwitch d hw = .ok (cleared, hw') := by
  obtain ⟨hw', happly⟩ := hwApply_without_vlans d cleared rfl
    (write d 0x38 0xc000050e ((List.finRange numPorts).foldl (resetPort d) hw))
  refine ⟨hw', ?_⟩
  rw [resetSwitch, happly]
  rfl

/-- A reset, and calls of `ar8216_set_ports` behind it. -/
def portsAfterReset {σ : Type} (d : Device σ) (hw : Hw σ) (calls : List SwitchVal) : Except OutOfRange (Priv × Hw σ) := do
  let r ← resetSwitch d hw
  let priv ← setPortsCalls calls r.1
  pure (priv, r.2)

/-- Ports without tags are in one VLAN at most, the one of their pvid, and in VLAN mode a port reaches exactly
the other members of its VLANs. -/
theorem ar8216_vlans_isolated {σ : Type} (d : Device σ) (hw : Hw σ) (calls : List SwitchVal)
    (hcalls : ∀ val ∈ calls, Valid val) :
    ∃ priv hw₀, portsAfterReset d hw calls = .ok (priv, hw₀) ∧
      (∀ i, ¬ Tagged priv i → (∀ v w, Member priv v i → Member priv w i → v = w) ∧
        ∀ v, Member priv v i → (priv.pvid i).toNat = v.val) ∧
      ∀ hw₁ : Hw σ, ∃ hw₂, hwApply d { priv with vlan := true } hw₁ = .ok hw₂ ∧
        (∀ i j, Reaches hw₂.writes i j ↔ i ≠ j ∧ ∃ v, Member priv v i ∧ Member priv v j) ∧
        (∀ i j, Reaches hw₂.writes i j ↔ Reaches hw₂.writes j i) ∧
        ∀ i j v w, ¬ Tagged priv i → ¬ Tagged priv j → Member priv v i → Member priv w j → v ≠ w →
          ¬ Reaches hw₂.writes i j := by
  obtain ⟨hw₀, hreset⟩ := resetSwitch_ok d hw
  obtain ⟨priv, hrun, hsep⟩ := setPortsCalls_separated calls hcalls separated_cleared
  have hunique : ∀ i, ¬ Tagged priv i → ∀ v w, Member priv v i → Member priv w i → v = w := by
    intro i hi v w hv hw
    exact Fin.ext ((hsep.untagged i hi v hv).symm.trans (hsep.untagged i hi w hw))
  refine ⟨priv, hw₀, ?_, fun i hi => ⟨hunique i hi, hsep.untagged i hi⟩, fun hw₁ => ?_⟩
  · simp only [portsAfterReset, hreset]
    change (setPortsCalls calls cleared).bind _ = _
    rw [hrun]
    rfl
  · obtain ⟨hw₂, happly, hreach⟩ := hwApply_reaches d { priv with vlan := true } rfl hsep.pvids hw₁
    refine ⟨hw₂, happly, hreach, fun i j => ?_, fun i j v w hi hj hv hw hne hij => ?_⟩
    · rw [hreach, hreach]
      constructor
      · rintro ⟨hne, v, hvi, hvj⟩
        exact ⟨Ne.symm hne, v, hvj, hvi⟩
      · rintro ⟨hne, v, hvj, hvi⟩
        exact ⟨Ne.symm hne, v, hvi, hvj⟩
    · obtain ⟨-, u, hui, huj⟩ := (hreach i j).mp hij
      exact hne ((hunique i hi v u hv hui).trans (hunique j hj u w huj hw))

/-- A device whose registers read as zero. -/
def silent : Device Unit := ⟨fun _ s => (0, s), fun _ _ s => s⟩

/-- Ports 1 and 2 without tags and port 0 with tags in VLAN 1. -/
def lan : SwitchVal := ⟨1, 3, 0, none, some fun n => ⟨BitVec.ofNat 32 ((n + 1) % 3), n == 2⟩⟩

theorem ar8216_vlans_isolated_lan :
    (∀ val ∈ [lan], Valid val) ∧ ∃ priv hw₀, portsAfterReset silent ⟨(), []⟩ [lan] = .ok (priv, hw₀) ∧
      ∀ i, ¬ Tagged priv i → ∀ v, Member priv v i → (priv.pvid i).toNat = v.val := by
  have hvalid : ∀ val ∈ [lan], Valid val := by
    simp only [List.forall_mem_singleton]
    exact ⟨by decide, by decide⟩
  obtain ⟨priv, hw₀, hrun, hports, -⟩ := ar8216_vlans_isolated silent ⟨(), []⟩ [lan] hvalid
  exact ⟨hvalid, priv, hw₀, hrun, fun i hi => (hports i hi).2⟩

end Neufbox.Ar8216
