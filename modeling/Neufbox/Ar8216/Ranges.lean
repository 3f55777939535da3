import Neufbox.Ar8216.PortLists
import Neufbox.Ar8216.VlanIds

/-! # Indices of requests

Numbers of a request become signed integers that are compared with upper bounds only, the attribute of the
driver for the id of a VLAN does not check its number at all, and a pvid is stored as it comes and used as an
index later. Requests that avoid these three keep every access inside its table, whatever their order. -/
namespace Neufbox.Ar8216
open Neufbox.Swconfig
set_option autoImplicit false
set_option maxHeartbeats 250000
set_option maxRecDepth 120000

/-! ## Runs -/

inductive Request
  | set (info : GenlInfo)
  | get (info : GenlInfo)

def Request.info : Request → GenlInfo
  | .set info | .get info => info

def serve {σ : Type} (d : Device σ) (s : State σ) : Request → Except OutOfRange (State σ)
  | .set info => do
    let r ← setAttr d info s
    pure r.2
  | .get info => do
    let _ ← getAttr info s
    pure s

/-- Requests to a switch that was set up, and an activation of what they have stored. -/
def session {σ : Type} (d : Device σ) (hw : Hw σ) (requests : List Request) : Except OutOfRange (State σ) := do
  let r ← resetSwitch d hw
  let s ← requests.foldlM (serve d) ⟨r.1, r.2⟩
  let hw ← hwApply d s.priv s.hw
  pure { s with hw := hw }

/-- The number that reaches an attribute. The id of a VLAN is not checked; the others are compared with an upper
bound, where negative numbers pass; a pvid is to name a VLAN. -/
def NumberOk (r : Request) (attr : Attr) (n : ℤ) : Prop :=
  match r, attr with
  | .set info, .vid => info.valueInt ≠ none → 0 ≤ n ∧ n < numVlans
  | .get _, .vid => 0 ≤ n ∧ n < numVlans
  | .set info, .pvid => ∀ i, info.valueInt = some i → 0 ≤ n ∧ (n < numPorts → i.toNat % 2 ^ 16 < numVlans)
  | .set info, .ports => (∀ nlas, info.valuePorts = some nlas → Parses nlas) → 0 ≤ n
  | .get _, .pvid | .get _, .ports => 0 ≤ n
  | _, _ => True

/-- A request that names an attribute with a number below `2 ^ 31`, and a number that the attribute can take. -/
def Sane (r : Request) : Prop :=
  ∀ opId group n, r.info.opId = some opId → r.info.cmd = some group → requestNumber r.info group = some n →
    0 ≤ opId.toInt ∧ ∀ attr, entryAt group opId.toInt = .ok (some attr) → NumberOk r attr n

/-! ## One request -/

theorem entryAt_ok (group : Group) {attrId : ℤ} (h : 0 ≤ attrId) : ∃ attr, entryAt group attrId = .ok attr := by
  rw [entryAt]
  split
  · split
    · exact ⟨none, rfl⟩
    · rw [index, dif_pos ⟨by omega, by omega⟩]
      exact ⟨_, rfl⟩
  · split
    · exact ⟨none, rfl⟩
    · rw [index, dif_pos ⟨h, by omega⟩]
      exact ⟨_, rfl⟩

/-- A sane request finds no attribute, or one with a number that it can take. -/
theorem lookup_sane {r : Request} (h : Sane r) :
    lookup r.info = .ok none ∨ ∃ attr n, lookup r.info = .ok (some (attr, n)) ∧ NumberOk r attr n := by
  rw [lookup]
  split
  · next opId group hid hcmd =>
    cases hn : requestNumber r.info group with
    | none => exact Or.inl rfl
    | some n =>
      obtain ⟨hpos, hok⟩ := h opId group n hid hcmd hn
      obtain ⟨entry, hentry⟩ := entryAt_ok group hpos
      simp only [hentry]
      cases entry with
      | none => exact Or.inl rfl
      | some attr => exact Or.inr ⟨attr, n, rfl, hok attr hentry⟩
  · exact Or.inl rfl

def PvidsOk (priv : Priv) : Prop := ∀ i, (priv.pvid i).toNat < numVlans

theorem pvidsOk_pvidsSet {priv : Priv} (h : PvidsOk priv) (v : Fin numVlans) (ports : List SwitchPort) :
    PvidsOk (pvidsSet v ports priv) := by
  intro i
  by_cases hlisted : i ∈ ports.map portOf
  · rw [pvidsSet]
    simp only [if_pos hlisted, vlan_toNat]
    exact v.isLt
  · rw [pvidsSet]
    simp only [if_neg hlisted]
    exact h i

theorem requestPorts_ok {priv : Priv} (h : PvidsOk priv) (nlas : Option (List Nla)) {n : ℤ}
    (hn : (∀ l, nlas = some l → Parses l) → 0 ≤ n) :
    ∃ ret priv', requestPorts nlas n priv = .ok (ret, priv') ∧ PvidsOk priv' := by
  -- an absent list is an empty one
  have hnone : requestPorts none n priv = requestPorts (some []) n priv := rfl
  have hsome : ∀ l, (Parses l → 0 ≤ n) → ∃ ret priv', requestPorts (some l) n priv = .ok (ret, priv') ∧ PvidsOk priv' := by
    intro l hl
    by_cases hparses : Parses l
    · by_cases hvlan : n < numVlans
      · obtain ⟨v, rfl⟩ := exists_fin ⟨hl hparses, hvlan⟩
        rw [requestPorts_parsed hparses]
        split
        · exact ⟨_, _, rfl, enterAll_pvids v _ (pvidsOk_pvidsSet h v _)⟩
        · exact ⟨_, _, rfl, pvidsOk_pvidsSet h v _⟩
      · obtain ⟨f, hparse, -⟩ := parsePorts_accepts numPorts 0 l (fun _ => ⟨0, false⟩) (portbuf n) rfl rfl
          (by rw [Nat.zero_add]; exact hparses.length) hparses.ports
        refine ⟨-EINVAL, priv, ?_, h⟩
        rw [requestPorts]
        simp only [hparse, lt_self_iff_false, if_false]
        rw [setVlanPorts]
        exact if_pos (not_lt.mp hvlan)
    · exact ⟨_, _, requestPorts_refused hparses n priv, h⟩
  cases nlas with
  | none =>
    rw [hnone]
    exact hsome [] fun _ => hn (by simp)
  | some l =>
    refine hsome l fun hparses => hn fun l' hl' => ?_
    rwa [← Option.some.inj hl']

theorem hwApply_ok {σ : Type} (d : Device σ) {priv : Priv} (h : PvidsOk priv) (hw : Hw σ) :
    ∃ hw', hwApply d priv hw = .ok hw' := by
  cases hvlan : priv.vlan with
  | false => exact hwApply_without_vlans d priv hvlan hw
  | true =>
    obtain ⟨hw', happly, -⟩ := hwApply_reaches d priv hvlan h hw
    exact ⟨hw', happly⟩

theorem pvid_stored (i : BitVec 32) : (BitVec.ofInt 16 i.toInt).toNat = i.toNat % 2 ^ 16 := by
  have hword : BitVec.ofInt 16 i.toInt = i.setWidth 16 := by
    rw [BitVec.toInt_eq_toNat_bmod]
    apply BitVec.eq_of_toNat_eq
    simp [BitVec.toNat_ofInt, Int.bmod]
    omega
  rw [hword, BitVec.toNat_setWidth]

theorem ok_bind {α β : Type} (a : α) (f : α → Except OutOfRange β) : (Except.ok a >>= f) = f a := rfl

section Serve
variable {σ : Type} (d : Device σ) {s : State σ}

/-- An attribute that needs a value is refused without one. -/
theorem withValue_ok (h : PvidsOk s.priv) (info : GenlInfo) (set : BitVec 32 → Except OutOfRange (ℤ × State σ))
    (hset : ∀ i, info.valueInt = some i → ∃ r, set i = .ok r ∧ PvidsOk r.2.priv) :
    ∃ r, withValue info s set = .ok r ∧ PvidsOk r.2.priv := by
  rw [withValue]
  cases hvalue : info.valueInt with
  | none => exact ⟨_, rfl, h⟩
  | some i => exact hset i hvalue

theorem setAttr_ok (h : PvidsOk s.priv) {info : GenlInfo} (hsane : Sane (.set info)) :
    ∃ r, setAttr d info s = .ok r ∧ PvidsOk r.2.priv := by
  rw [setAttr]
  obtain hnone | ⟨attr, n, hattr, hok⟩ := lookup_sane hsane
  · rw [show lookup info = .ok none from hnone]
    exact ⟨_, rfl, h⟩
  · rw [show lookup info = .ok (some (attr, n)) from hattr, ok_bind]
    cases attr with
    | vlan => exact withValue_ok h info _ fun i _ => ⟨_, rfl, h⟩
    | vid =>
      refine withValue_ok h info _ fun i hi => ?_
      obtain ⟨v, rfl⟩ := exists_fin (hok (by rw [hi]; simp))
      rw [setVid, index_natCast .vlanId v.isLt]
      exact ⟨_, rfl, h⟩
    | pvid =>
      refine withValue_ok h info _ fun i hi => ?_
      obtain ⟨hpos, hvalue⟩ := hok i hi
      by_cases hport : n < numPorts
      · obtain ⟨k, rfl⟩ := exists_fin ⟨hpos, hport⟩
        rw [if_neg (not_le.mpr hport), setPvid_ok]
        refine ⟨_, rfl, fun j => ?_⟩
        by_cases hj : j = k
        · simp only [hj, Function.update_self, pvid_stored]
          exact hvalue hport
        · simp only [Function.update_of_ne hj]
          exact h j
      · rw [if_pos (not_lt.mp hport)]
        exact ⟨_, rfl, h⟩
    | ports =>
      obtain ⟨ret, priv', hports, hpvids⟩ := requestPorts_ok h info.valuePorts hok
      simp only [hports, ok_bind]
      exact ⟨_, rfl, hpvids⟩
    | apply =>
      obtain ⟨hw', happly⟩ := hwApply_ok d h s.hw
      rw [happly]
      exact ⟨_, rfl, h⟩
    | reset =>
      obtain ⟨hw', hreset⟩ := resetSwitch_ok d s.hw
      rw [hreset]
      exact ⟨_, rfl, tracks_cleared.pvids⟩

theorem getAttr_ok {info : GenlInfo} (hsane : Sane (.get info)) : ∃ ret, getAttr info s = .ok ret := by
  rw [getAttr]
  obtain hnone | ⟨attr, n, hattr, hok⟩ := lookup_sane hsane
  · rw [show lookup info = .ok none from hnone]
    exact ⟨_, rfl⟩
  · rw [show lookup info = .ok (some (attr, n)) from hattr, ok_bind]
    cases attr with
    | vlan | apply | reset => exact ⟨_, rfl⟩
    | vid =>
      obtain ⟨v, rfl⟩ := exists_fin hok
      simp only [getVid, index_natCast .vlanId v.isLt, ok_bind]
      exact ⟨_, rfl⟩
    | pvid =>
      by_cases hport : n < numPorts
      · obtain ⟨k, rfl⟩ := exists_fin ⟨hok, hport⟩
        simp only [getPvid, index_natCast .pvid k.isLt, ok_bind]
        exact ⟨_, if_neg (not_le.mpr hport)⟩
      · exact ⟨_, if_pos (not_lt.mp hport)⟩
    | ports =>
      by_cases hvlan : n < numVlans
      · obtain ⟨v, rfl⟩ := exists_fin ⟨hok, hvlan⟩
        simp only [getPorts, portbuf, index_natCast .vlanTable v.isLt, ok_bind]
        exact ⟨_, if_neg (not_le.mpr hvlan)⟩
      · exact ⟨_, if_pos (not_lt.mp hvlan)⟩

theorem serve_ok (h : PvidsOk s.priv) {r : Request} (hsane : Sane r) :
    ∃ s', serve d s r = .ok s' ∧ PvidsOk s'.priv := by
  cases r with
  | set info =>
    obtain ⟨r, hset, hpvids⟩ := setAttr_ok d h hsane
    exact ⟨r.2, by rw [serve, hset]; rfl, hpvids⟩
  | get info =>
    obtain ⟨ret, hget⟩ := getAttr_ok hsane
    exact ⟨s, by rw [serve, hget]; rfl, h⟩

theorem requests_ok (h : PvidsOk s.priv) (requests : List Request) (hsane : ∀ r ∈ requests, Sane r) :
    ∃ s', requests.foldlM (serve d) s = .ok s' ∧ PvidsOk s'.priv := by
  induction requests generalizing s with
  | nil => exact ⟨s, rfl, h⟩
  | cons r requests ih =>
    obtain ⟨s₁, hserve, hpvids⟩ := serve_ok d h (hsane r List.mem_cons_self)
    obtain ⟨s', hrun, hend⟩ := ih hpvids fun r hr => hsane r (List.mem_cons_of_mem _ hr)
    refine ⟨s', ?_, hend⟩
    rw [List.foldlM_cons, hserve]
    exact hrun

end Serve

/-- Sane requests, in any number and order, and an activation behind them never use an index outside a table. -/
theorem ar8216_requests_in_range {σ : Type} (d : Device σ) (hw : Hw σ) (requests : List Request)
    (hsane : ∀ r ∈ requests, Sane r) : ∃ s, session d hw requests = .ok s := by
  obtain ⟨hw₀, hreset⟩ := resetSwitch_ok d hw
  obtain ⟨s, hrun, hpvids⟩ := requests_ok d (s := ⟨cleared, hw₀⟩) tracks_cleared.pvids requests hsane
  obtain ⟨hw', happly⟩ := hwApply_ok d hpvids s.hw
  refine ⟨{ s with hw := hw' }, ?_⟩
  rw [session, hreset, ok_bind, hrun, ok_bind, happly]
  rfl

/-- A request with a number and a value. -/
def numbered (group : Group) (opId number value : BitVec 32) : GenlInfo where
  cmd := some group
  id := none
  opId := some opId
  opVlan := some number
  opPort := some number
  valueInt := some value
  valueStr := none
  valuePorts := none

theorem sane_numbered {group : Group} {opId number value : BitVec 32} (attr : Attr) (hid : 0 ≤ opId.toInt)
    (hentry : entryAt group opId.toInt = .ok (some attr))
    (hnumber : ∀ n, requestNumber (numbered group opId number value) group = some n →
      NumberOk (.set (numbered group opId number value)) attr n) : Sane (.set (numbered group opId number value)) := by
  intro opId' group' n hop hcmd hn
  cases hop
  cases hcmd
  refine ⟨hid, fun attr' hattr => ?_⟩
  cases hentry.symm.trans hattr
  exact hnumber n hn

/-- The pvid of port 2 becomes 7, VLAN mode is switched on and the id of VLAN 7 set. -/
theorem ar8216_requests_in_range_small : ∃ s, session silent ⟨(), []⟩
    [.set (numbered .port 0x1000 2 7), .set (numbered .global 0 0 1), .set (numbered .vlan 0 7 100)] = .ok s := by
  refine ar8216_requests_in_range silent ⟨(), []⟩ _ ?_
  rw [List.forall_mem_cons, List.forall_mem_cons, List.forall_mem_singleton]
  refine ⟨sane_numbered .pvid (by decide) (by decide) ?_, sane_numbered .vlan (by decide) (by decide) ?_,
    sane_numbered .vid (by decide) (by decide) ?_⟩
  · rintro n hn i hi
    cases hn
    cases hi
    exact ⟨by decide, fun _ => by decide⟩
  · exact fun n _ => trivial
  · rintro n hn _
    cases hn
    exact ⟨by decide, by decide⟩

/-- The id of a VLAN behind the last one, an attribute with a number from `2 ^ 31` on, and a pvid that names no
VLAN and is then used: each leaves a table. -/
theorem ar8216_index_out_of_range :
    session silent ⟨(), []⟩ [.set (numbered .vlan 0 16 1)] = .error ⟨.vlanId, 16⟩ ∧
    session silent ⟨(), []⟩ [.get (numbered .global 0xffffffff 0 0)] = .error ⟨.attrs, -1⟩ ∧
    session silent ⟨(), []⟩ [.set (numbered .port 0x1000 0 100), .set (numbered .global 0 0 1)] = .error ⟨.vlanId, 100⟩ := by
  refine ⟨rfl, rfl, rfl⟩

end Neufbox.Ar8216
