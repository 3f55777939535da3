import Mathlib.Data.List.TakeWhile
import Neufbox.Ar8216.Isolation

/-! # Requests with port lists

`swconfig_set_vlan_ports` sets pvids while it still checks the ports, and it looks for the tagged flag in
another bit than the one in which the parser has set it. A port list that is refused can leave pvids changed,
and a list that is accepted changes the pvids of tagged ports too. -/
namespace Neufbox.Ar8216
open Neufbox.Swconfig
set_option autoImplicit false
set_option maxHeartbeats 250000
set_option maxRecDepth 120000

/-! ## The parser -/

/-- A nested port as the request carries it; `none` when it does not parse. -/
abbrev Nla := Option (Option (BitVec 32) × Bool)

def Nla.port : Nla → Option SwitchPort
  | some (some id, tagged) => some ⟨id, tagged⟩
  | _ => none

/-- The ports of a list that the parser accepts. -/
def entries (nlas : List Nla) : List SwitchPort := nlas.filterMap Nla.port

structure Parses (nlas : List Nla) : Prop where
  length : nlas.length ≤ numPorts
  ports : ∀ nla ∈ nlas, (Nla.port nla).isSome

theorem parsePorts_cons (max : ℤ) (nla : Nla) (nlas : List Nla) (val : SwitchVal) (hmax : val.len < max) :
    parsePorts max (nla :: nlas) val =
      match Nla.port nla with
      | some p => parsePorts max nlas { val with
          len := val.len + 1
          ports := val.ports.map fun ports => Function.update ports val.len.toNat p }
      | none => (-EINVAL, val) := by
  conv_lhs => unfold parsePorts
  rw [if_neg (not_le.mpr hmax)]
  match nla with
  | none => rfl
  | some (none, _) => rfl
  | some (some _, _) => rfl

/-- The parser puts the ports behind those that the buffer holds. -/
theorem parsePorts_accepts (max k : ℕ) (nlas : List Nla) (f : ℕ → SwitchPort) (val : SwitchVal) (hlen : val.len = k)
    (hports : val.ports = some f) (hmax : k + nlas.length ≤ max) (hall : ∀ nla ∈ nlas, (Nla.port nla).isSome) :
    ∃ f', parsePorts max nlas val = (0, { val with len := ↑(k + nlas.length), ports := some f' }) ∧
      (List.range (k + nlas.length)).map f' = (List.range k).map f ++ entries nlas := by
  induction nlas generalizing k f val with
  | nil =>
    refine ⟨f, ?_, by simp [entries]⟩
    simp [parsePorts, ← hlen, ← hports]
  | cons nla nlas ih =>
    rw [List.length_cons] at hmax ⊢
    obtain ⟨p, hp⟩ := Option.isSome_iff_exists.mp (hall nla List.mem_cons_self)
    obtain ⟨f', hparse, hmap⟩ := ih (k + 1) (Function.update f k p)
      { val with len := val.len + 1, ports := val.ports.map fun ports => Function.update ports val.len.toNat p }
      (by simp [hlen]) (by simp [hports, hlen]) (by omega) fun nla hnla => hall nla (List.mem_cons_of_mem _ hnla)
    have hsum : k + (nlas.length + 1) = k + 1 + nlas.length := by omega
    refine ⟨f', ?_, ?_⟩
    · rw [parsePorts_cons _ _ _ _ (by rw [hlen]; exact_mod_cast (by omega : k < max)), hp]
      simp only [hparse, hsum]
    · have hkeep : (List.range k).map (Function.update f k p) = (List.range k).map f := by
        refine List.map_congr_left fun n hn => ?_
        exact Function.update_of_ne (ne_of_lt (List.mem_range.mp hn)) _ _
      rw [hsum, hmap, List.range_succ, List.map_append, hkeep, entries, entries, List.filterMap_cons, hp]
      simp

theorem parsePorts_refuses (max k : ℕ) (nlas : List Nla) (val : SwitchVal) (hlen : val.len = k) (hk : k ≤ max)
    (hbad : ¬ (k + nlas.length ≤ max ∧ ∀ nla ∈ nlas, (Nla.port nla).isSome)) :
    (parsePorts max nlas val).1 = -EINVAL := by
  induction nlas generalizing k val with
  | nil => exact absurd ⟨hk, by simp⟩ hbad
  | cons nla nlas ih =>
    by_cases hfull : (max : ℤ) ≤ val.len
    · unfold parsePorts
      rw [if_pos hfull]
    · rw [parsePorts_cons _ _ _ _ (not_le.mp hfull)]
      cases hp : Nla.port nla with
      | none => rfl
      | some p =>
        rw [hlen] at hfull
        have hlt : k < max := by exact_mod_cast not_le.mp hfull
        refine ih (k + 1) _ (by simp [hlen]) (by omega) fun hgood => hbad ⟨?_, ?_⟩
        · rw [List.length_cons]
          omega
        · exact List.forall_mem_cons.mpr ⟨by rw [hp]; rfl, hgood.2⟩

/-! ## The generic layer -/

/-- The generic layer's test of the flags never finds the bit of the parser. -/
theorem flags_generic (p : SwitchPort) : flags p &&& BitVec.ofNat 32 flagTagged = 0 := by
  rw [flags]
  cases p.tagged <;> decide

/-- Pvids that are set one after the other. -/
def pvidsSet (v : Fin numVlans) (ports : List SwitchPort) (priv : Priv) : Priv :=
  { priv with pvid := fun i => if i ∈ ports.map portOf then BitVec.ofNat 16 v else priv.pvid i }

def knownPort (p : SwitchPort) : Bool := p.id.toNat < numPorts

theorem validatePorts_eq (v : Fin numVlans) (ports : List SwitchPort) (priv : Priv) :
    validatePorts v.val ports priv = .ok (if ports.all knownPort then none else some (-EINVAL),
      pvidsSet v (ports.takeWhile knownPort) priv) := by
  induction ports generalizing priv with
  | nil => simp [validatePorts, pvidsSet]
  | cons p ports ih =>
    rw [validatePorts]
    by_cases hid : p.id.toNat < numPorts
    · have hport : portOf p = ⟨p.id.toNat, hid⟩ := Fin.ext (Nat.mod_eq_of_lt hid)
      have hset := setPvid_ok (portOf p) v.val priv
      have hknown : knownPort p = true := decide_eq_true hid
      rw [hport] at hset
      simp only at hset
      rw [if_neg (not_le.mpr hid), if_pos (flags_generic p), hset]
      change validatePorts _ _ _ = _
      rw [ih, List.all_cons, List.takeWhile_cons, hknown]
      simp only [Bool.true_and, if_true, pvidsSet, Except.ok.injEq, Prod.mk.injEq, true_and, Priv.mk.injEq,
        List.map_cons, List.mem_cons]
      funext i
      rw [← hport]
      by_cases hmem : i ∈ (ports.takeWhile knownPort).map portOf
      · simp [hmem]
      · by_cases hi : i = portOf p
        · simp [hi]
        · simp [hmem, hi]
    · have hknown : knownPort p = false := decide_eq_false hid
      rw [if_pos (not_lt.mp hid), List.all_cons, List.takeWhile_cons, hknown]
      simp [pvidsSet]

theorem enterAll_pvid (v : Fin numVlans) (ports : List SwitchPort) (priv : Priv) (i : Fin numPorts) :
    (enterAll v ports priv).pvid i =
      if ∃ p ∈ ports, portOf p = i ∧ p.tagged = false then BitVec.ofNat 16 v else priv.pvid i := by
  induction ports generalizing priv with
  | nil => simp [enterAll]
  | cons p ports ih =>
    rw [enterAll, List.foldl_cons]
    refine (ih _).trans ?_
    rw [pvid_enter]
    by_cases hrest : ∃ p ∈ ports, portOf p = i ∧ p.tagged = false
    · simp [hrest]
    · by_cases hp : i = portOf p ∧ p.tagged = false
      · simp [hp.1, hp.2]
      · rw [if_neg hrest, if_neg hp, if_neg]
        rintro ⟨q, hq, hport, htagged⟩
        rcases List.mem_cons.mp hq with rfl | hq
        · exact hp ⟨hport.symm, htagged⟩
        · exact hrest ⟨q, hq, hport, htagged⟩

/-! ## Requests -/

/-- A request that sets the ports of a VLAN. -/
def portsRequest (v : Fin numVlans) (nlas : Option (List Nla)) : GenlInfo where
  cmd := some .vlan
  id := none
  opId := some 0x1000
  opVlan := some (BitVec.ofNat 32 v)
  opPort := none
  valueInt := none
  valueStr := none
  valuePorts := nlas

theorem setAttr_portsRequest {σ : Type} (d : Device σ) (v : Fin numVlans) (nlas : Option (List Nla)) (s : State σ) :
    setAttr d (portsRequest v nlas) s =
      (requestPorts nlas v.val s.priv).map fun r => (r.1, { s with priv := r.2 }) := by
  have hnumber : ∀ v : Fin numVlans, (BitVec.ofNat 32 v).toInt = v.val := by decide
  have hlookup : lookup (portsRequest v nlas) = .ok (some (.ports, (v.val : ℤ))) := by
    simp only [lookup, portsRequest, requestNumber, Option.map_some, hnumber]
    rfl
  rw [setAttr, hlookup]
  rfl

/-- The last entry of a list for a port: whether it is tagged. -/
def lastTagged (ports : List SwitchPort) (i : Fin numPorts) : Option Bool :=
  (ports.reverse.find? fun p => portOf p = i).map SwitchPort.tagged

theorem lastTagged_eq_none_iff (ports : List SwitchPort) (i : Fin numPorts) :
    lastTagged ports i = none ↔ i ∉ ports.map portOf := by
  simp [lastTagged]

/-- An error leaves the tables alone; a success sets the pvid of the ports whose last entry is untagged, and
of no others. -/
def AppliedExactly {σ : Type} (d : Device σ) (v : Fin numVlans) (nlas : List Nla) (s : State σ) : Prop :=
  ∃ ret s', setAttr d (portsRequest v (some nlas)) s = .ok (ret, s') ∧
    (ret ≠ 0 → s'.priv.vlanTable = s.priv.vlanTable ∧ s'.priv.vlanTagged = s.priv.vlanTagged ∧ s'.priv.pvid = s.priv.pvid) ∧
    (ret = 0 → ∀ i, s'.priv.pvid i =
      if lastTagged (entries nlas) i = some false then BitVec.ofNat 16 v else s.priv.pvid i)

/-- The pvids that are set too early or for tagged ports are already those of the VLAN. -/
def Harmless (v : Fin numVlans) (ports : List SwitchPort) (priv : Priv) : Prop :=
  if ports.all knownPort then ∀ i, lastTagged ports i = some true → priv.pvid i = BitVec.ofNat 16 v
  else ∀ p ∈ ports.takeWhile knownPort, priv.pvid (portOf p) = BitVec.ofNat 16 v

theorem requestPorts_refused {nlas : List Nla} (h : ¬ Parses nlas) (portVlan : ℤ) (priv : Priv) :
    requestPorts (some nlas) portVlan priv = .ok (-EINVAL, priv) := by
  have hret : (parsePorts numPorts nlas (portbuf portVlan)).1 = -EINVAL := by
    refine parsePorts_refuses numPorts 0 nlas _ rfl (Nat.zero_le _) fun hgood => h ⟨?_, hgood.2⟩
    rw [← Nat.zero_add nlas.length]
    exact hgood.1
  have hneg : -EINVAL < 0 := by decide
  rw [requestPorts]
  simp only [hret, if_pos hneg]

/-- What a list that parses does. -/
theorem requestPorts_parsed {nlas : List Nla} (h : Parses nlas) (v : Fin numVlans) (priv : Priv) :
    requestPorts (some nlas) v.val priv =
      if (entries nlas).all knownPort then
        .ok (0, enterAll v (entries nlas) (emptied v (pvidsSet v (entries nlas) priv)))
      else .ok (-EINVAL, pvidsSet v ((entries nlas).takeWhile knownPort) priv) := by
  obtain ⟨f, hparse, hmap⟩ := parsePorts_accepts numPorts 0 nlas (fun _ => ⟨0, false⟩) (portbuf v.val) rfl rfl
    (by rw [Nat.zero_add]; exact h.length) h.ports
  rw [Nat.zero_add, List.range_zero, List.map_nil, List.nil_append] at hmap
  rw [Nat.zero_add] at hparse
  have hlist : portList { portbuf v.val with len := (nlas.length : ℤ), ports := some f } = entries nlas := by
    rw [portList, Int.toNat_natCast]
    exact hmap
  have hvlan : ¬ (numVlans : ℤ) ≤ (v.val : ℤ) := not_le.mpr (Int.ofNat_lt.mpr v.isLt)
  have hlen : ¬ (numPorts : ℤ) < (nlas.length : ℤ) := not_lt.mpr (Int.ofNat_le.mpr h.length)
  rw [requestPorts]
  simp only [hparse, lt_self_iff_false, if_false]
  simp only [setVlanPorts, portbuf, if_neg hvlan, if_neg hlen]
  simp only [portbuf] at hlist
  rw [hlist, validatePorts_eq]
  by_cases hall : (entries nlas).all knownPort = true
  · have hwhole : (entries nlas).takeWhile knownPort = entries nlas :=
      List.takeWhile_eq_self_iff.mpr fun p hp => List.all_eq_true.mp hall p hp
    have hvalid : Valid (⟨v.val, nlas.length, 0, none, some f⟩ : SwitchVal) := by
      refine ⟨⟨Int.natCast_nonneg _, Int.ofNat_lt.mpr v.isLt⟩, fun p hp => ?_⟩
      rw [hlist] at hp
      exact of_decide_eq_true (List.all_eq_true.mp hall p hp)
    have hset := setPorts_ok hvalid (pvidsSet v (entries nlas) priv)
    rw [hlist] at hset
    rw [if_pos hall, hwhole]
    simp only [hall, if_true]
    change (setPorts _ _).bind _ = _
    rw [hset]
    rfl
  · rw [if_neg hall]
    simp only [hall]
    rfl

/-- The pvids behind an accepted list. -/
theorem accepted_pvid (v : Fin numVlans) (ports : List SwitchPort) (priv : Priv) (i : Fin numPorts) :
    (enterAll v ports (emptied v (pvidsSet v ports priv))).pvid i =
      if lastTagged ports i = none then priv.pvid i else BitVec.ofNat 16 v := by
  have hset : (emptied v (pvidsSet v ports priv)).pvid i =
      if i ∈ ports.map portOf then BitVec.ofNat 16 v else priv.pvid i := rfl
  rw [enterAll_pvid, hset]
  by_cases hlisted : i ∈ ports.map portOf
  · rw [if_pos hlisted, ite_self, if_neg fun hnone => (lastTagged_eq_none_iff ports i).mp hnone hlisted]
  · have hfree : ¬ ∃ p ∈ ports, portOf p = i ∧ p.tagged = false := by
      rintro ⟨p, hp, rfl, -⟩
      exact hlisted (List.mem_map_of_mem hp)
    rw [if_neg hlisted, if_neg hfree, if_pos ((lastTagged_eq_none_iff ports i).mpr hlisted)]

theorem pvidsSet_eq_iff (v : Fin numVlans) (ports : List SwitchPort) (priv : Priv) :
    (pvidsSet v ports priv).pvid = priv.pvid ↔ ∀ p ∈ ports, priv.pvid (portOf p) = BitVec.ofNat 16 v := by
  constructor
  · intro h p hp
    rw [← congrFun h (portOf p)]
    exact if_pos (List.mem_map_of_mem hp)
  · intro h
    funext i
    by_cases hlisted : i ∈ ports.map portOf
    · obtain ⟨p, hp, rfl⟩ := List.mem_map.mp hlisted
      exact (if_pos hlisted).trans (h p hp).symm
    · exact if_neg hlisted

/-- A list that parses is applied exactly when the pvids in question are already right. -/
theorem appliedExactly_parsed {σ : Type} (d : Device σ) (v : Fin numVlans) {nlas : List Nla} (h : Parses nlas)
    (s : State σ) : AppliedExactly d v nlas s ↔ Harmless v (entries nlas) s.priv := by
  have hreq := requestPorts_parsed h v s.priv
  by_cases hall : (entries nlas).all knownPort = true
  · rw [if_pos hall] at hreq
    rw [AppliedExactly, setAttr_portsRequest, hreq, Harmless, if_pos hall]
    constructor
    · rintro ⟨ret, s', hrun, -, hpvids⟩ i hi
      cases hrun
      have hpvid := hpvids rfl i
      rw [accepted_pvid, hi] at hpvid
      simpa using hpvid.symm
    · intro hright
      refine ⟨0, _, rfl, fun hne => absurd rfl hne, fun _ i => ?_⟩
      simp only [accepted_pvid]
      cases hlast : lastTagged (entries nlas) i with
      | none => simp
      | some tagged =>
        cases tagged with
        | false => simp
        | true => simpa using (hright i hlast).symm
  · rw [if_neg hall] at hreq
    rw [AppliedExactly, setAttr_portsRequest, hreq, Harmless, if_neg hall, ← pvidsSet_eq_iff]
    have herr : (-EINVAL : ℤ) ≠ 0 := by decide
    constructor
    · rintro ⟨ret, s', hrun, hsame, -⟩
      cases hrun
      exact (hsame herr).2.2
    · intro hright
      exact ⟨-EINVAL, _, rfl, fun _ => ⟨rfl, rfl, hright⟩, fun hzero => absurd hzero herr⟩

/-- A port list is applied exactly or not at all if and only if it does not parse or the pvids that are set
too early or for tagged ports are already those of the VLAN. -/
theorem port_list_applied_exactly_iff {σ : Type} (d : Device σ) (v : Fin numVlans) (nlas : List Nla) (s : State σ) :
    AppliedExactly d v nlas s ↔ (Parses nlas → Harmless v (entries nlas) s.priv) := by
  by_cases hparses : Parses nlas
  · rw [appliedExactly_parsed d v hparses s]
    exact ⟨fun h _ => h, fun h => h hparses⟩
  · refine ⟨fun _ h => absurd h hparses, fun _ => ?_⟩
    rw [AppliedExactly, setAttr_portsRequest, requestPorts_refused hparses]
    exact ⟨-EINVAL, s, rfl, fun _ => ⟨rfl, rfl, rfl⟩, fun hzero => absurd hzero (by decide)⟩

/-- Port 1 with tags in VLAN 3 of a switch that was just reset: its pvid is changed. -/
theorem tagged_port_gets_pvid :
    ¬ AppliedExactly silent ⟨3, by decide⟩ [some (some 1, true)] ⟨cleared, ⟨(), []⟩⟩ := by
  have hparses : Parses [some (some 1, true)] := ⟨by decide, by simp [Nla.port]⟩
  rw [appliedExactly_parsed silent _ hparses]
  intro h
  exact absurd (h ⟨1, by decide⟩ (by decide)) (by decide)

end Neufbox.Ar8216
