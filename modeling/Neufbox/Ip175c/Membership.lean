import Neufbox.Ip175c.RoundTrip

/-! # The ports of a VLAN

`ip175c_set_ports` reads the whole state, gives one VLAN new ports, computes the masks that follow from the VLANs
and writes everything back. `ip175c_get_ports` lists the ports of a VLAN from a state that it reads again. -/
namespace Neufbox.Ip175c
open Neufbox.Library.Bits Neufbox.Library.BitCells
set_option autoImplicit false
set_option maxHeartbeats 250000
set_option maxRecDepth 120000

/-! ## The driver's functions -/

/-- `SWITCH_PORT_FLAG_TAGGED` -/
def portFlagTagged : ℕ := 2

structure SwitchPort where
  id : ℕ
  flags : BitVec 32
  deriving DecidableEq

def SwitchPort.tagged (port : SwitchPort) : Bool := port.flags &&& one portFlagTagged ≠ 0

/-- The number of VLANs is one more than the last VLAN that has ports. -/
def countVlan (vlanPorts : ℕ → BitVec 32) (numVlans : ℤ) (i : ℕ) : ℤ := if vlanPorts i ≠ 0 then i + 1 else numVlans

def shareVlan (vlanPorts : ℕ → BitVec 32) (portmask : BitVec 32) (shareports : BitVec 32) (j : ℕ) : BitVec 32 :=
  if vlanPorts j &&& portmask ≠ 0 then shareports ||| vlanPorts j else shareports

/-- `(1<<NUM_PORTS)-1` -/
def everyPort (map : RegisterMappings) : BitVec 32 := one map.numPorts - 1

def correctShareports (map : RegisterMappings) (state : State) (i : ℕ) : BitVec 32 :=
  if state.vlanEnabled = 0 then everyPort map else (List.range maxVlans).foldl (shareVlan state.vlanPorts (one i)) (one i)

def correctVlanState (map : RegisterMappings) (state : State) : State :=
  { state with
    numVlans := (List.range maxVlans).foldl (countVlan state.vlanPorts) 0
    ports := fun i => if i < map.numPorts then { state.ports i with shareports := correctShareports map state i }
      else state.ports i
    removeTag := ~~~state.addTag &&& everyPort map }

/-- One turn of the loop over `val->value.ports`. -/
def setPort (v : ℕ) (state : State) (port : SwitchPort) : State :=
  { state with
    vlanPorts := Function.update state.vlanPorts v (state.vlanPorts v ||| one port.id)
    addTag := if port.tagged then state.addTag ||| one port.id else state.addTag &&& ~~~one port.id }

def emptyVlan (v : ℕ) (state : State) : State := { state with vlanPorts := Function.update state.vlanPorts v 0 }

def setPorts (map : RegisterMappings) (portVlan : ℤ) (ports : List SwitchPort) (regs : Regs) : Option Regs :=
  if (maxVlans : ℤ) ≤ portVlan ∨ portVlan < 0 then none
  else do
    let state ← getState map regs
    updateState map (correctVlanState map (ports.foldl (setPort portVlan.toNat) (emptyVlan portVlan.toNat state))) regs

def getPort (addTag : BitVec 32) (turn : BitVec 32 × List SwitchPort) (b : ℕ) : BitVec 32 × List SwitchPort :=
  (turn.1 >>> 1, if turn.1 &&& 1 ≠ 0
    then turn.2 ++ [⟨b, ((addTag >>> b) &&& 1) <<< portFlagTagged⟩] else turn.2)

def getPorts (map : RegisterMappings) (portVlan : ℤ) (regs : Regs) : Option (List SwitchPort) :=
  if (maxVlans : ℤ) ≤ portVlan ∨ portVlan < 0 then none
  else do
    let state ← getState map regs
    pure ((List.range maxPorts).foldl (getPort state.addTag) (state.vlanPorts portVlan.toNat, [])).2

/-! ## What the loops compute -/

def lastEntry (ports : List SwitchPort) (b : ℕ) : Option SwitchPort := ports.reverse.find? fun port => port.id = b

theorem lastEntry_cons (port : SwitchPort) (ports : List SwitchPort) (b : ℕ) :
    lastEntry (port :: ports) b = (lastEntry ports b).or (if port.id = b then some port else none) := by
  rw [lastEntry, List.reverse_cons, List.find?_append]
  congr 1
  by_cases hid : port.id = b <;> simp [hid]

section Listing
variable (v : ℕ)

theorem setPorts_vlan (ports : List SwitchPort) (hids : ∀ port ∈ ports, port.id < 32) (state : State) (k : ℕ) :
    ((ports.foldl (setPort v) state).vlanPorts v).getLsbD k =
      ((state.vlanPorts v).getLsbD k || decide (k ∈ ports.map SwitchPort.id)) := by
  induction ports generalizing state with
  | nil => simp
  | cons port ports ih =>
    have hid := hids port List.mem_cons_self
    have hturn : ((setPort v state port).vlanPorts v).getLsbD k = ((state.vlanPorts v).getLsbD k || decide (port.id = k)) := by
      simp only [setPort, Function.update_self]
      exact getLsbD_or_twoPow _ _ _ hid
    rw [List.foldl_cons, ih fun p hp => hids p (List.mem_cons_of_mem _ hp), hturn, Bool.or_assoc, ← Bool.decide_or]
    congr 2
    rw [List.map_cons, List.mem_cons, eq_comm (a := k)]

theorem setPorts_other (ports : List SwitchPort) (state : State) {w : ℕ} (hw : w ≠ v) :
    (ports.foldl (setPort v) state).vlanPorts w = state.vlanPorts w := by
  induction ports generalizing state with
  | nil => rfl
  | cons port ports ih =>
    rw [List.foldl_cons, ih]
    exact Function.update_of_ne hw _ _

theorem setPorts_addTag (ports : List SwitchPort) (hids : ∀ port ∈ ports, port.id < 32) (state : State) (k : ℕ) :
    (ports.foldl (setPort v) state).addTag.getLsbD k =
      ((lastEntry ports k).map SwitchPort.tagged).getD (state.addTag.getLsbD k) := by
  induction ports generalizing state with
  | nil => rfl
  | cons port ports ih =>
    have hid := hids port List.mem_cons_self
    have hturn : (setPort v state port).addTag.getLsbD k =
        if port.id = k then port.tagged else state.addTag.getLsbD k := by
      simp only [setPort]
      by_cases htagged : port.tagged = true
      · rw [if_pos htagged, one, getLsbD_or_twoPow _ _ _ hid]
        by_cases hk : port.id = k <;> simp [hk, htagged]
      · rw [if_neg htagged, one, getLsbD_and_not_twoPow _ _ _ hid]
        by_cases hk : port.id = k <;> simp [hk, htagged]
    rw [List.foldl_cons, ih fun p hp => hids p (List.mem_cons_of_mem _ hp), hturn, lastEntry_cons]
    cases lastEntry ports k with
    | some last => rfl
    | none => by_cases hk : port.id = k <;> simp [hk]

theorem setPorts_rest (ports : List SwitchPort) (state : State) :
    (ports.foldl (setPort v) state).vlanEnabled = state.vlanEnabled ∧
      (ports.foldl (setPort v) state).routerMode = state.routerMode := by
  induction ports generalizing state with
  | nil => exact ⟨rfl, rfl⟩
  | cons port ports ih => exact ih (setPort v state port)

end Listing

def listedPort (vlanPorts addTag : BitVec 32) (b : ℕ) : Option SwitchPort :=
  if vlanPorts.getLsbD b then some ⟨b, ((addTag >>> b) &&& 1) <<< portFlagTagged⟩ else none

theorem getPort_loop (vlanPorts addTag : BitVec 32) (n : ℕ) :
    (List.range n).foldl (getPort addTag) (vlanPorts, []) =
      (vlanPorts >>> n, (List.range n).filterMap (listedPort vlanPorts addTag)) := by
  induction n with
  | zero => simp
  | succ n ih =>
    have hbit : (vlanPorts >>> n) &&& 1 ≠ 0 ↔ vlanPorts.getLsbD n = true := by
      have hone : (1 : BitVec 32) = BitVec.twoPow 32 0 := rfl
      rw [hone, and_twoPow_ne_zero_iff, BitVec.getLsbD_ushiftRight, Nat.add_zero]
    rw [List.range_succ, List.foldl_append, ih, List.filterMap_append, List.foldl_cons, List.foldl_nil, getPort,
      BitVec.shiftRight_add]
    refine congrArg (Prod.mk _) ?_
    by_cases hset : vlanPorts.getLsbD n = true
    · rw [if_pos (hbit.mpr hset)]
      simp [listedPort, hset]
    · rw [if_neg (mt hbit.mp hset)]
      simp [listedPort, hset]

theorem listedPort_tagged {vlanPorts addTag : BitVec 32} {b : ℕ} {port : SwitchPort}
    (hport : listedPort vlanPorts addTag b = some port) : port.id = b ∧ port.tagged = addTag.getLsbD b := by
  rw [listedPort] at hport
  split at hport
  · cases hport
    refine ⟨rfl, ?_⟩
    have hone : (1 : BitVec 32) = BitVec.twoPow 32 0 := rfl
    have hflag : ((addTag >>> b) &&& 1) <<< portFlagTagged &&& one portFlagTagged ≠ 0 ↔ addTag.getLsbD b = true := by
      rw [one, and_twoPow_ne_zero_iff, BitVec.getLsbD_shiftLeft, hone, BitVec.getLsbD_and, BitVec.getLsbD_twoPow,
        BitVec.getLsbD_ushiftRight]
      simp [portFlagTagged]
    rw [SwitchPort.tagged]
    exact Bool.eq_iff_iff.mpr (decide_eq_true_iff.trans hflag)
  · cases hport

theorem countVlan_range (vlanPorts : ℕ → BitVec 32) :
    0 ≤ (List.range maxVlans).foldl (countVlan vlanPorts) 0 ∧
      (List.range maxVlans).foldl (countVlan vlanPorts) 0 ≤ maxVlans := by
  refine List.foldlRecOn (motive := fun n => 0 ≤ n ∧ n ≤ (maxVlans : ℤ)) _ _ ⟨le_refl _, by decide⟩ ?_
  intro n hn i hi
  have hlt := List.mem_range.mp hi
  rw [countVlan]
  split
  · omega
  · exact hn

theorem getLsbD_shareVlan (vlanPorts : ℕ → BitVec 32) (i : ℕ) (vlans : List ℕ) (bits : BitVec 32) (k : ℕ) :
    (vlans.foldl (shareVlan vlanPorts (one i)) bits).getLsbD k = true ↔ bits.getLsbD k = true ∨
      ∃ w ∈ vlans, (vlanPorts w).getLsbD i = true ∧ (vlanPorts w).getLsbD k = true := by
  induction vlans generalizing bits with
  | nil => simp
  | cons w vlans ih =>
    have hturn : (shareVlan vlanPorts (one i) bits w).getLsbD k = true ↔
        bits.getLsbD k = true ∨ ((vlanPorts w).getLsbD i = true ∧ (vlanPorts w).getLsbD k = true) := by
      rw [shareVlan, one]
      by_cases hbit : (vlanPorts w).getLsbD i = true
      · rw [if_pos ((and_twoPow_ne_zero_iff _ _).mpr hbit), BitVec.getLsbD_or, Bool.or_eq_true]
        simp [hbit]
      · rw [if_neg (mt (and_twoPow_ne_zero_iff _ _).mp hbit)]
        simp [hbit]
    rw [List.foldl_cons, ih, hturn, List.exists_mem_cons_iff, or_assoc]

/-! ## States that are read -/

theorem toNat_lt_of_clear {n : ℕ} {bits : BitVec 32} (h : ∀ k, n ≤ k → bits.getLsbD k = false) : bits.toNat < 2 ^ n :=
  Nat.lt_pow_two_of_testBit _ h

theorem clear_of_toNat_lt {n k : ℕ} {bits : BitVec 32} (h : bits.toNat < 2 ^ n) (hk : n ≤ k) : bits.getLsbD k = false :=
  Nat.testBit_lt_two_pow (lt_of_lt_of_le h (Nat.pow_le_pow_right (by decide) hk))

structure ReadState (map : RegisterMappings) (state : State) : Prop where
  routerMode : state.routerMode = 0 ∨ state.routerMode = 1
  vlanEnabled : state.vlanEnabled = 0 ∨ state.vlanEnabled = 1
  addTag : state.addTag.toNat < 2 ^ map.numPorts
  vlanPorts : ∀ j < maxVlans, (state.vlanPorts j).toNat < 2 ^ map.numPorts

section States
variable {map : RegisterMappings}

theorem getPortBits_any {addr : Reg} {bitLookup : List ℤ} (htable : TableFits map bitLookup)
    (haddr : addr.supported = true) (regs : Regs) :
    ∃ bits, getPortBits addr bitLookup regs = some bits ∧ bits.toNat < 2 ^ map.numPorts := by
  refine ⟨_, by rw [getPortBits, getPhy, if_pos haddr]; rfl, toNat_lt_of_clear fun k hk => ?_⟩
  rw [getLsbD_getPortBits _ _ _ fun i hi => lt_trans (List.mem_range.mp hi) (by decide)]
  simp only [BitVec.ofNat_eq_ofNat, BitVec.getLsbD_zero, Bool.false_or, decide_eq_false_iff_not]
  rintro ⟨hmax, hne, -⟩
  exact hne ((htable k (List.mem_range.mp hmax)).2 hk)

theorem collect_any {α : Type} [Inhabited α] (P : α → Prop) (n : ℕ) (f : ℕ → Option α)
    (hf : ∀ i < n, ∃ a, f i = some a ∧ P a) : ∃ r, collect n f = some r ∧ ∀ i < n, P (r i) := by
  choose! g hg using hf
  obtain ⟨r, hr, heq⟩ := collect_eq n f g fun i hi => (hg i hi).1
  refine ⟨r, hr, fun i hi => ?_⟩
  rw [heq i hi]
  exact (hg i hi).2

theorem getShareports_any (h : Regular map) (regs : Regs) (j : ℕ) : ∃ bits, getShareports map regs j = some bits := by
  rw [getShareports, if_pos h.lookupReg]
  by_cases hj : j < map.numPorts ∧ (getLookupReg map j).supported = true
  · rw [if_pos hj]
    obtain ⟨bits, hbits, -⟩ := getPortBits_any (h.share j hj.1).2.1 hj.2 regs
    exact ⟨bits, hbits⟩
  · exact ⟨0, if_neg hj⟩

theorem getState_any (h : Regular map) (regs : Regs) : ∃ state, getState map regs = some state ∧ ReadState map state := by
  obtain ⟨numVlans, hflags⟩ := getFlags_eq h regs
  obtain ⟨removeTag, hremove, -⟩ := getPortBits_any h.removeTag.2 h.removeTag.1 regs
  obtain ⟨addTag, hadd, haddlt⟩ := getPortBits_any h.addTag.2 h.addTag.1 regs
  obtain ⟨shares, hshares, -⟩ := collect_any (fun _ => True) maxPorts (getShareports map regs) fun j _ => by
    obtain ⟨bits, hbits⟩ := getShareports_any h regs j
    exact ⟨bits, hbits, trivial⟩
  obtain ⟨vlans, hvlans, hvlan⟩ := collect_any (fun bits => bits.toNat < 2 ^ map.numPorts) maxVlans (getVlanPorts map regs)
    fun j hj => by
      rw [getVlanPorts, if_pos h.maskReg]
      exact getPortBits_any (h.vlans j hj).2 (h.vlans j hj).1 regs
  refine ⟨_, by rw [getState, hflags, hremove, hadd, hshares, hvlans]; rfl, ?_⟩
  have hbit : ∀ b : Bool, (if b then 1 else 0 : ℤ) = 0 ∨ (if b then 1 else 0 : ℤ) = 1 := by decide
  have hflag : ∀ b : Bool, (if b then 1 else 0 : ℤ) ≠ -1 := by decide
  exact { routerMode := hbit _, vlanEnabled := by rw [if_neg (hflag _)]; exact hbit _, addTag := haddlt, vlanPorts := hvlan }

theorem getPorts_eq {regs : Regs} {state : State} (hget : getState map regs = some state) {w : ℕ} (hw : w < maxVlans) :
    getPorts map w regs = some ((List.range maxPorts).filterMap (listedPort (state.vlanPorts w) state.addTag)) := by
  have hrange : ¬ ((maxVlans : ℤ) ≤ w ∨ (w : ℤ) < 0) := by omega
  rw [getPorts, if_neg hrange, hget]
  simp only [Option.bind_eq_bind, Option.bind_some, Int.toNat_natCast, getPort_loop]
  rfl

/-! ## States that are written -/

theorem everyPort_lt (h : Regular map) : (everyPort map).toNat < 2 ^ map.numPorts := by
  have hports : map.numPorts ≤ 9 := h.ports
  rw [everyPort, one]
  generalize map.numPorts = n at hports
  interval_cases n <;> decide

theorem correctShareports_lt (h : Regular map) {state : State}
    (hvlans : ∀ j < maxVlans, (state.vlanPorts j).toNat < 2 ^ map.numPorts) {i : ℕ} (hi : i < map.numPorts) : (correctShareports map state i).toNat < 2 ^ map.numPorts := by
  rw [correctShareports]
  split
  · exact everyPort_lt h
  · refine toNat_lt_of_clear fun k hk => Bool.eq_false_iff.mpr fun hset => ?_
    rcases (getLsbD_shareVlan _ _ _ _ _).mp hset with hone | ⟨w, hw, -, hbit⟩
    · rw [one, BitVec.getLsbD_twoPow] at hone
      simp only [Bool.and_eq_true, decide_eq_true_eq] at hone
      omega
    · rw [clear_of_toNat_lt (hvlans w (List.mem_range.mp hw)) hk] at hbit
      cases hbit

def oneVlan (state : State) : State := { state with numVlans := max 1 state.numVlans }

/-- No VLAN with ports is written like one. -/
theorem updateState_oneVlan (h : Regular map) (state : State) (hnum : 0 ≤ state.numVlans) (regs : Regs) :
    updateState map state regs = updateState map (oneVlan state) regs := by
  have hcount : ∀ val, setNumVlans map state.numVlans val = setNumVlans map (oneVlan state).numVlans val := by
    intro val
    by_cases hzero : state.numVlans = 0
    · simp [oneVlan, hzero, setNumVlans, h.flags.groups]
    · have hmax : max 1 state.numVlans = state.numVlans := by omega
      rw [oneVlan, hmax]
  have hflags : ∀ regs, updateFlags map state regs = updateFlags map (oneVlan state) regs := by
    intro regs
    simp only [updateFlags, hcount]
    rfl
  rw [updateState, updateState]
  simp only [hflags]
  rfl

/-- What is written of a corrected state: its tags and VLANs, and the masks of shared ports. -/
theorem updateState_corrected (h : Regular map) {state : State} (hread : ReadState map state) (regs : Regs) :
    ∃ regs' state', updateState map (correctVlanState map state) regs = some regs' ∧ getState map regs' = some state' ∧
      state'.addTag = state.addTag ∧ (∀ w < maxVlans, state'.vlanPorts w = state.vlanPorts w) ∧
      ∀ i < map.numPorts, ∀ j < map.numPorts, (regs' (setLookupReg map i)).getLsbD (lookupBit (vlanLookupBits map i) j).toNat =
        (correctShareports map state i).getLsbD j := by
  have hnum := countVlan_range state.vlanPorts
  have hshare : ∀ i < map.numPorts, ((oneVlan (correctVlanState map state)).ports i).shareports =
      correctShareports map state i := by
    intro i hi
    simp only [oneVlan, correctVlanState, if_pos hi]
  have hlog : Logical map (oneVlan (correctVlanState map state)) := {
    routerMode := hread.routerMode
    vlanEnabled := hread.vlanEnabled
    addTag := hread.addTag
    removeTag := by
      simp only [oneVlan, correctVlanState, BitVec.toNat_and]
      exact Nat.and_lt_two_pow _ (everyPort_lt h)
    shareports := fun i hi => by
      rw [hshare i hi]
      exact correctShareports_lt h hread.vlanPorts hi
    vlanPorts := hread.vlanPorts
    numVlans := ⟨le_max_left _ _, max_le (by decide) hnum.2⟩ }
  have hwritten := updateState_oneVlan h (correctVlanState map state) hnum.1 regs
  obtain ⟨regs', hupdate, has⟩ := updateState_assigned h hlog.numVlans.1 regs
  obtain ⟨state', hget, htables, -, -⟩ := getState_assigned h has hlog
  refine ⟨regs', state', hwritten.trans hupdate, hget, htables.addTag, htables.vlanPorts, fun i hi j hj => ?_⟩
  obtain ⟨-, htable, -⟩ := h.share i hi
  obtain ⟨hmem, hlt⟩ := mem_portCells h.ports htable (setLookupReg map i)
    ((oneVlan (correctVlanState map state)).ports i).shareports hj
  rw [← hshare i hi]
  exact has.get (h.nodup _) hlt (shareCells_subset hi hmem)

end States

/-! ## Updating a VLAN -/

section Update
variable {map : RegisterMappings} {state : State} {v : ℕ} {ports : List SwitchPort}

/-- The state between the read and the corrections. -/
def listed (v : ℕ) (ports : List SwitchPort) (state : State) : State := ports.foldl (setPort v) (emptyVlan v state)

theorem listed_vlan (hids : ∀ port ∈ ports, port.id < 32) (k : ℕ) :
    ((listed v ports state).vlanPorts v).getLsbD k = decide (k ∈ ports.map SwitchPort.id) := by
  rw [listed, setPorts_vlan v ports hids]
  simp [emptyVlan]

theorem listed_other {w : ℕ} (hw : w ≠ v) : (listed v ports state).vlanPorts w = state.vlanPorts w := by
  rw [listed, setPorts_other v ports _ hw]
  exact Function.update_of_ne hw _ _

theorem listed_addTag (hids : ∀ port ∈ ports, port.id < 32) (k : ℕ) :
    (listed v ports state).addTag.getLsbD k = ((lastEntry ports k).map SwitchPort.tagged).getD (state.addTag.getLsbD k) :=
  setPorts_addTag v ports hids _ k

theorem readState_listed (hn : map.numPorts ≤ maxPorts) (hread : ReadState map state)
    (hids : ∀ port ∈ ports, port.id < map.numPorts) : ReadState map (listed v ports state) := by
  have hids' : ∀ port ∈ ports, port.id < 32 := fun port hport =>
    lt_of_lt_of_le (hids port hport) (le_trans hn (by decide))
  obtain ⟨hvlan, hrouter⟩ := setPorts_rest v ports (emptyVlan v state)
  refine ⟨?_, ?_, ?_, ?_⟩
  · rw [listed, hrouter]
    exact hread.routerMode
  · rw [listed, hvlan]
    exact hread.vlanEnabled
  · refine toNat_lt_of_clear fun k hk => ?_
    rw [listed_addTag hids', clear_of_toNat_lt hread.addTag hk]
    cases hlast : lastEntry ports k with
    | none => rfl
    | some last =>
      have hid : last.id = k := by simpa using List.find?_some hlast
      have hmem : last ∈ ports := List.mem_reverse.mp (List.mem_of_find?_eq_some hlast)
      have hlt := hids last hmem
      omega
  · intro w hw
    by_cases hwv : w = v
    · subst hwv
      refine toNat_lt_of_clear fun k hk => ?_
      rw [listed_vlan hids', decide_eq_false_iff_not]
      intro hmem
      obtain ⟨port, hport, rfl⟩ := List.mem_map.mp hmem
      exact absurd (hids port hport) (not_lt.mpr hk)
    · rw [listed_other hwv]
      exact hread.vlanPorts w hw

end Update

/-! ## The ports that are listed -/

theorem listedPort_ids (vlanPorts addTag : BitVec 32) (l : List ℕ) :
    (l.filterMap (listedPort vlanPorts addTag)).map SwitchPort.id = l.filter vlanPorts.getLsbD := by
  induction l with
  | nil => rfl
  | cons b l ih =>
    by_cases hset : vlanPorts.getLsbD b = true
    · simp [listedPort, hset, ← ih]
    · simp [listedPort, hset, ← ih]

def InVlan (map : RegisterMappings) (regs : Regs) (w b : ℕ) : Prop :=
  ∃ ports, getPorts map w regs = some ports ∧ b ∈ ports.map SwitchPort.id

theorem inVlan_iff {map : RegisterMappings} {regs : Regs} {state : State} (hget : getState map regs = some state) {w b : ℕ}
    (hw : w < maxVlans) (hb : b < maxPorts) : InVlan map regs w b ↔ (state.vlanPorts w).getLsbD b = true := by
  rw [InVlan, getPorts_eq hget hw]
  simp only [Option.some.injEq, exists_eq_left', listedPort_ids, List.mem_filter, List.mem_range, hb, true_and]

/-- The bit that lets port `i` send to port `j`. -/
def SharesWith (map : RegisterMappings) (regs : Regs) (i j : ℕ) : Prop :=
  (regs (setLookupReg map i)).getLsbD (lookupBit (vlanLookupBits map i) j).toNat = true

theorem correctShareports_iff {map : RegisterMappings} {state : State} (henabled : state.vlanEnabled ≠ 0) {i j : ℕ}
    (hi : i < 32) : (correctShareports map state i).getLsbD j = true ↔
      i = j ∨ ∃ w < maxVlans, (state.vlanPorts w).getLsbD i = true ∧ (state.vlanPorts w).getLsbD j = true := by
  rw [correctShareports, if_neg henabled, getLsbD_shareVlan, one, BitVec.getLsbD_twoPow]
  simp [hi]

/-- A VLAN gets exactly the ports of the list, each with the tag of its last entry; the other VLANs keep their
ports; and with VLANs enabled, two ports share where they are the same or in one VLAN. -/
theorem set_ports_then_get_ports (chip : Chip) (regs : Regs) (v : ℕ) (ports : List SwitchPort) (hv : v < maxVlans)
    (hids : ∀ port ∈ ports, port.id < chip.map.numPorts) :
    ∃ regs' result, setPorts chip.map v ports regs = some regs' ∧ getPorts chip.map v regs' = some result ∧
      (result.map SwitchPort.id).Pairwise (· < ·) ∧
      (∀ b, b ∈ result.map SwitchPort.id ↔ b ∈ ports.map SwitchPort.id) ∧
      (∀ port ∈ result, ∃ last, lastEntry ports port.id = some last ∧ port.tagged = last.tagged) ∧
      (∀ w < maxVlans, w ≠ v → ∃ before after, getPorts chip.map w regs = some before ∧
        getPorts chip.map w regs' = some after ∧ after.map SwitchPort.id = before.map SwitchPort.id) ∧
      ∀ state, getState chip.map regs = some state → state.vlanEnabled ≠ 0 →
        ∀ i < chip.map.numPorts, ∀ j < chip.map.numPorts, SharesWith chip.map regs' i j ↔
          i = j ∨ ∃ w < maxVlans, InVlan chip.map regs' w i ∧ InVlan chip.map regs' w j := by
  have h := chip.regular
  have hmax : ∀ {i : ℕ}, i < chip.map.numPorts → i < maxPorts := fun hi => lt_of_lt_of_le hi h.ports
  have h32 : ∀ {i : ℕ}, i < chip.map.numPorts → i < 32 := fun hi => lt_trans (hmax hi) (by decide)
  have hids' : ∀ port ∈ ports, port.id < 32 := fun port hport => h32 (hids port hport)
  obtain ⟨state, hget, hread⟩ := getState_any h regs
  obtain ⟨regs', state', hupdate, hget', htags, hvlans, hshare⟩ :=
    updateState_corrected h (readState_listed (v := v) h.ports hread hids) regs
  have hset : setPorts chip.map v ports regs = some regs' := by
    have hrange : ¬ ((maxVlans : ℤ) ≤ v ∨ (v : ℤ) < 0) := by omega
    rw [setPorts, if_neg hrange, hget]
    exact hupdate
  have hbits : ∀ b, (state'.vlanPorts v).getLsbD b = decide (b ∈ ports.map SwitchPort.id) := by
    intro b
    rw [hvlans v hv]
    exact listed_vlan hids' b
  refine ⟨regs', _, hset, getPorts_eq hget' hv, ?_, ?_, ?_, ?_, ?_⟩
  · rw [listedPort_ids]
    exact List.Pairwise.filter _ List.pairwise_lt_range
  · intro b
    rw [listedPort_ids, List.mem_filter, hbits, decide_eq_true_iff, List.mem_range, and_iff_right_iff_imp]
    intro hmem
    obtain ⟨port, hport, rfl⟩ := List.mem_map.mp hmem
    exact hmax (hids port hport)
  · intro port hport
    obtain ⟨b, -, hlist⟩ := List.mem_filterMap.mp hport
    obtain ⟨rfl, htagged⟩ := listedPort_tagged hlist
    have hmem : port.id ∈ ports.map SwitchPort.id := by
      rw [listedPort] at hlist
      split at hlist
      · next hbit => exact of_decide_eq_true ((hbits _).symm.trans hbit)
      · cases hlist
    obtain ⟨entry, hentry, hid⟩ := List.mem_map.mp hmem
    cases hlast : lastEntry ports port.id with
    | none =>
      have hnone := List.find?_eq_none.mp hlast entry (List.mem_reverse.mpr hentry)
      simp [hid] at hnone
    | some last =>
      refine ⟨last, rfl, ?_⟩
      rw [htagged, htags, listed_addTag hids', hlast]
      rfl
  · intro w hw hne
    refine ⟨_, _, getPorts_eq hget hw, getPorts_eq hget' hw, ?_⟩
    rw [listedPort_ids, listedPort_ids, hvlans w hw, listed_other hne]
  · intro read hgetread henabled i hi j hj
    rw [hget] at hgetread
    cases hgetread
    have henabled' : (listed v ports state).vlanEnabled ≠ 0 := by
      rw [listed, (setPorts_rest v ports (emptyVlan v state)).1]
      exact henabled
    rw [SharesWith, hshare i hi j hj, correctShareports_iff henabled' (h32 hi)]
    refine or_congr_right (exists_congr fun w => and_congr_right fun hw => ?_)
    rw [inVlan_iff hget' hw (hmax hi), inVlan_iff hget' hw (hmax hj), hvlans w hw]

/-- Port two twice, tagged the second time, on a switch whose registers are all zero. -/
theorem set_ports_then_get_ports_twice : ∃ regs' result,
    setPorts IP175C 1 [⟨2, 0⟩, ⟨4, 0⟩, ⟨2, 4⟩] (fun _ => 0) = some regs' ∧ getPorts IP175C 1 regs' = some result ∧
      (result.map SwitchPort.id).Pairwise (· < ·) ∧ (∀ b, b ∈ result.map SwitchPort.id ↔ b ∈ [2, 4, 2]) ∧
      ∀ port ∈ result, port.tagged = decide (port.id = 2) := by
  obtain ⟨regs', result, hset, hget, hsorted, hmem, htagged, -⟩ := set_ports_then_get_ports .ip175c (fun _ => 0) 1
    [⟨2, 0⟩, ⟨4, 0⟩, ⟨2, 4⟩] (by decide) (by decide)
  refine ⟨regs', result, hset, hget, hsorted, hmem, fun port hport => ?_⟩
  obtain ⟨last, hlast, htag⟩ := htagged port hport
  have hid := (hmem port.id).mp (List.mem_map_of_mem hport)
  simp only [List.map_cons, List.map_nil, List.mem_cons, List.not_mem_nil, or_false] at hid
  rw [htag]
  rcases hid with hid | hid | hid <;> rw [hid] at hlast ⊢ <;> cases hlast <;> decide

end Neufbox.Ip175c
