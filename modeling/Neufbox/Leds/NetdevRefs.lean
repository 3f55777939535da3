import Neufbox.Leds.NetdevTrigger

/-! # The references of the netdev LED trigger

The trigger should hold one reference, on the device it watches, and none when it watches none. A name stored while
a device is watched loses the reference on it, and the end of a device of the stored name, told of when none is
watched, brings a link up that is not there. All other steps keep the balance, in every legal order. -/
namespace Neufbox.Leds.Netdev
open CString RunAlong
set_option autoImplicit false
set_option maxHeartbeats 250000
set_option maxRecDepth 120000

/-! ## Statements -/

/-- The references are those of the watched device, which is registered under the stored name; without one there is
no link. -/
structure Settled (s : State) : Prop where
  balanced : ∀ d, s.refs d = if s.trigger.netDev = some d then 1 else 0
  watched : ∀ d, s.trigger.netDev = some d → (s.phase d).isRegistered ∧ d.name = s.trigger.deviceName
  linkless : s.trigger.netDev = none → s.trigger.linkUp = false

/-- No name is stored while a device is watched, and the end of a device of the stored name is not told of with a
carrier when none is watched. -/
def Harmless (s : State) : Op → Prop
  | .storeName buf _ => buf.length < ifnamsiz → s.trigger.netDev = none
  | .notify .unregister d carrier => d.name = s.trigger.deviceName → s.trigger.netDev = none → carrier = false
  | _ => True

instance Harmless.decidable (s : State) : ∀ op, Decidable (Harmless s op)
  | .storeName _ _ => inferInstanceAs (Decidable (_ → _))
  | .notify .unregister _ _ => inferInstanceAs (Decidable (_ → _ → _))
  | .notify .register _ _ => isTrue trivial
  | .notify .up _ _ => isTrue trivial
  | .notify .change _ _ => isTrue trivial
  | .notify .down _ _ => isTrue trivial
  | .notify .other _ _ => isTrue trivial
  | .list _ => isTrue trivial
  | .unlist _ => isTrue trivial
  | .release _ => isTrue trivial
  | .storeMode _ => isTrue trivial
  | .storeInterval _ => isTrue trivial
  | .timer _ _ => isTrue trivial

/-- What holds besides: a link is up only on a device that is, and a device of the stored name is watched from its
registration on. -/
structure Inv (s : State) : Prop extends Settled s where
  running : s.trigger.linkUp = true → ∀ d, s.trigger.netDev = some d → s.phase d = .up
  found : ∀ d, d.name = s.trigger.deviceName → s.phase d = .down ∨ s.phase d = .up → s.trigger.netDev = some d

theorem NetDevice.ext_name {d e : NetDevice} (h : d.name = e.name) : d = e := by
  cases d
  cases e
  cases h
  rfl

/-! ## The parts of the trigger that count -/

/-- Brightness and timer do not matter, nor do mode and interval. -/
structure SameWatch (t u : LedNetdevData) : Prop where
  netDev : t.netDev = u.netDev
  deviceName : t.deviceName = u.deviceName
  linkUp : t.linkUp = u.linkUp

theorem Inv.of_sameWatch {s t : State} (h : Inv s) (hw : SameWatch t.trigger s.trigger) (hrefs : t.refs = s.refs)
    (hphase : t.phase = s.phase) : Inv t := by
  obtain ⟨hnet, hname, hlink⟩ := hw
  constructor
  · constructor
    · rw [hnet, hrefs]
      exact h.balanced
    · rw [hnet, hname, hphase]
      exact h.watched
    · rw [hnet, hlink]
      exact h.linkless
  · rw [hnet, hlink, hphase]
    exact h.running
  · rw [hnet, hname, hphase]
    exact h.found

theorem activate_inv (jiffies : ℕ → ℕ) (brightness : ℕ) (phase : NetDevice → Phase) :
    Inv (activate jiffies brightness phase) := by
  constructor
  · constructor
    · intro d
      rfl
    · intro d hd
      cases hd
    · intro _
      rfl
  · intro h
    cases h
  · intro d hd
    exact absurd hd d.named

theorem modeStore_inv {s : State} (h : Inv s) (buf : List UInt8) : Inv (modeStore buf s) := by
  unfold modeStore
  split
  · exact h
  · exact h.of_sameWatch ⟨rfl, rfl, rfl⟩ rfl rfl

theorem intervalStore_inv {s : State} (h : Inv s) (jiffies : ℕ → ℕ) (buf : List UInt8) :
    Inv (intervalStore jiffies buf s) := by
  unfold intervalStore
  dsimp only
  split
  · exact h.of_sameWatch ⟨rfl, rfl, rfl⟩ rfl rfl
  · exact h

theorem trigTimer_inv {s : State} (h : Inv s) (txPackets rxPackets : ℕ) : Inv (trigTimer txPackets rxPackets s) := by
  unfold trigTimer
  dsimp only
  split
  · exact h.of_sameWatch ⟨rfl, rfl, rfl⟩ rfl rfl
  · exact h.of_sameWatch ⟨rfl, rfl, rfl⟩ rfl rfl

/-! ## Storing a name -/

theorem devGetByName_some {s : State} {name : CStr} {d : NetDevice} (h : devGetByName s name = some d) :
    d.name = name ∧ (s.phase d).isListed := by
  unfold devGetByName at h
  split at h
  · cases h
  · split at h
    · cases h
      exact ⟨rfl, ‹_›⟩
    · cases h

theorem devGetByName_none {s : State} {d : NetDevice} (h : devGetByName s d.name = none) :
    (s.phase d).isListed = false := by
  unfold devGetByName at h
  rw [dif_neg d.named] at h
  by_contra hl
  rw [if_pos (by simpa using hl)] at h
  cases h

theorem deviceNameStore_inv {s : State} (h : Inv s) {buf : List UInt8} {carrier : Bool}
    (hnone : buf.length < ifnamsiz → s.trigger.netDev = none) : Inv (deviceNameStore buf carrier s) := by
  unfold deviceNameStore
  split
  · exact h
  next hlen =>
  have hnet := hnone (by omega)
  have hlink := h.linkless hnet
  have hzero : ∀ d, s.refs d = 0 := by
    intro d
    rw [h.balanced, hnet]
    rfl
  dsimp only
  split
  next hempty =>
    refine ⟨⟨h.balanced, ?_, h.linkless⟩, h.running, ?_⟩
    · intro d hd
      rw [hnet] at hd
      cases hd
    · intro d hd
      exact absurd (hd.trans hempty) d.named
  next hname =>
  split
  next hfind =>
    refine ⟨⟨?_, ?_, fun _ => hlink⟩, ?_, ?_⟩
    · intro d
      exact hzero d
    · intro d hd
      cases hd
    · intro _ d hd
      cases hd
    · intro d hd hphase
      rw [← (show d.name = storedName buf from hd)] at hfind
      have hl := devGetByName_none hfind
      rcases hphase with hp | hp <;> rw [show s.phase d = _ from hp] at hl <;> cases hl
  next e hfind =>
    obtain ⟨hename, hlisted⟩ := devGetByName_some hfind
    have hreg : (s.phase e).isRegistered := by
      revert hlisted
      cases s.phase e <;> decide
    refine ⟨⟨?_, ?_, ?_⟩, ?_, ?_⟩
    · intro d
      by_cases hde : e = d
      · subst hde
        simp [setBaselineState, devHold, hzero]
      · simp [setBaselineState, devHold, hzero, hde, Ne.symm hde]
    · intro d hd
      cases hd
      exact ⟨hreg, hename⟩
    · intro hd
      cases hd
    · intro hup d hd
      cases hd
      have hup : lowerUp (s.phase e) carrier = true := hup
      unfold lowerUp at hup
      simp only [Bool.and_eq_true, decide_eq_true_eq] at hup
      exact hup.1
    · intro d hd _
      exact congrArg some (NetDevice.ext_name (hename.trans hd.symm))

/-! ## Phases -/

/-- A device changes its phase, and the trigger stays as it is. -/
theorem setPhase_inv {s : State} (h : Inv s) {d : NetDevice} {p : Phase}
    (hreg : s.trigger.netDev = some d → p.isRegistered)
    (hup : s.trigger.linkUp = true → s.trigger.netDev = some d → p = .up)
    (hfound : d.name = s.trigger.deviceName → p = .down ∨ p = .up → s.trigger.netDev = some d) :
    Inv (s.setPhase d p) := by
  refine ⟨⟨h.balanced, ?_, h.linkless⟩, ?_, ?_⟩
  · intro e he
    refine ⟨?_, (h.watched e he).2⟩
    by_cases hde : e = d
    · subst hde
      simpa [State.setPhase] using hreg he
    · simpa [State.setPhase, hde] using (h.watched e he).1
  · intro hlink e he
    by_cases hde : e = d
    · subst hde
      simpa [State.setPhase] using hup hlink he
    · simpa [State.setPhase, hde] using h.running hlink e he
  · intro e hname hphase
    by_cases hde : e = d
    · subst hde
      simp only [State.setPhase, Function.update_self] at hphase
      exact hfound hname hphase
    · simp only [State.setPhase, Function.update_of_ne hde] at hphase
      exact h.found e hname hphase

theorem list_inv {s : State} (h : Inv s) {d : NetDevice} (hlegal : s.phase d = .absent) :
    Inv (s.setPhase d .listed) := by
  refine setPhase_inv h (fun _ => rfl) ?_ ?_
  · intro hlink hd
    rw [h.running hlink d hd] at hlegal
    cases hlegal
  · rintro - (hp | hp) <;> cases hp

theorem unlist_inv {s : State} (h : Inv s) {d : NetDevice} (hlegal : s.phase d = .down) :
    Inv (s.setPhase d .unlisted) := by
  refine setPhase_inv h (fun _ => rfl) ?_ ?_
  · intro hlink hd
    rw [h.running hlink d hd] at hlegal
    cases hlegal
  · rintro - (hp | hp) <;> cases hp

theorem release_inv {s : State} (h : Inv s) {d : NetDevice} (hlegal : s.phase d = .unregistered) :
    Inv (s.setPhase d .absent) := by
  have hnot : s.trigger.netDev ≠ some d := by
    intro hd
    have hreg := (h.watched d hd).1
    rw [hlegal] at hreg
    cases hreg
  refine setPhase_inv h (fun hd => absurd hd hnot) (fun _ hd => absurd hd hnot) ?_
  rintro - (hp | hp) <;> cases hp

/-! ## Notifications -/

section Notify
variable {s : State} {d : NetDevice} {carrier : Bool}

/-- The watched device is the one of the stored name. -/
theorem Inv.watched_eq (h : Inv s) (hname : d.name = s.trigger.deviceName) {e : NetDevice}
    (he : s.trigger.netDev = some e) : e = d :=
  NetDevice.ext_name ((h.watched e he).2.trans hname.symm)

/-- An event of a device of another name changes the phase of that device only. -/
theorem notify_other_inv (h : Inv s) {evt : NetdevEvent} (hname : d.name ≠ s.trigger.deviceName) :
    Inv (s.setPhase d (eventPhase (s.phase d) evt)) := by
  have hnot : s.trigger.netDev ≠ some d := fun hd => hname (h.watched d hd).2
  exact setPhase_inv h (fun hd => absurd hd hnot) (fun _ hd => absurd hd hnot) (fun hn => absurd hn hname)

theorem register_inv (h : Inv s) (hname : d.name = s.trigger.deviceName) :
    Inv ((trigNotify .register d carrier s).setPhase d .down) := by
  have hsplit : (trigNotify .register d carrier s).trigger = { s.trigger with netDev := some d, linkUp := false } ∧
      (trigNotify .register d carrier s).phase = s.phase ∧
      ∀ e, (trigNotify .register d carrier s).refs e = if d = e then 1 else 0 := by
    cases hnet : s.trigger.netDev with
    | none =>
      have hzero : ∀ e, s.refs e = 0 := fun e => by rw [h.balanced, hnet]; rfl
      simp only [trigNotify, hname, hnet, reduceCtorEq, if_false, ne_eq, not_true_eq_false, true_and]
      intro e
      by_cases hde : d = e
      · subst hde
        simp [devHold, hzero]
      · simp [devHold, hzero, hde, Ne.symm hde]
    | some old =>
      obtain rfl := h.watched_eq hname hnet
      simp only [trigNotify, hname, hnet, reduceCtorEq, if_false, ne_eq, not_true_eq_false, true_and]
      intro e
      by_cases hde : old = e
      · subst hde
        simp [devHold, devPut, h.balanced, hnet]
      · simp [devHold, devPut, h.balanced, hnet, hde, Ne.symm hde]
  obtain ⟨htrigger, hphase, hrefs⟩ := hsplit
  refine ⟨⟨?_, ?_, ?_⟩, ?_, ?_⟩
  · intro e
    simp only [State.setPhase, hrefs, htrigger, Option.some.injEq]
  · intro e he
    simp only [State.setPhase, htrigger, Option.some.injEq] at he
    subst he
    simp [State.setPhase, htrigger, hname, Phase.isRegistered]
  · intro hnone
    simp [State.setPhase, htrigger] at hnone
  · intro hlink
    simp [State.setPhase, htrigger] at hlink
  · intro e he _
    simp only [State.setPhase, htrigger] at he ⊢
    exact congrArg some (NetDevice.ext_name (hname.trans he.symm))

/-- `UP`, `DOWN` and `CHANGE` of the watched device set the link. -/
theorem link_inv (h : Inv s) (hname : d.name = s.trigger.deviceName) {evt : NetdevEvent} {p : Phase}
    (hevt : evt = .up ∨ evt = .change ∨ evt = .down) (hphase : s.phase d = .down ∨ s.phase d = .up)
    (hp : p = if evt = .down then .down else .up) : Inv ((trigNotify evt d carrier s).setPhase d p) := by
  have hnet := h.found d hname hphase
  have hnotify : trigNotify evt d carrier s =
      { s with trigger := setBaselineState { s.trigger with linkUp := evt ≠ .down && carrier } } := by
    obtain rfl | rfl | rfl := hevt <;>
      simp only [trigNotify, hname, reduceCtorEq, if_false, ne_eq, not_true_eq_false]
  rw [hnotify]
  refine ⟨⟨h.balanced, ?_, ?_⟩, ?_, ?_⟩
  · intro e he
    obtain rfl := h.watched_eq hname he
    refine ⟨?_, hname⟩
    rw [setPhase_self, hp]
    split <;> rfl
  · intro hnone
    exact absurd (hnet.symm.trans hnone) (by simp)
  · intro hlink e he
    obtain rfl := h.watched_eq hname he
    have hlink : (evt ≠ .down && carrier) = true := hlink
    rw [setPhase_self, hp, if_neg]
    intro hdown
    rw [hdown] at hlink
    simp at hlink
  · intro e he _
    obtain rfl := NetDevice.ext_name (he.trans hname.symm)
    exact hnet

theorem unregister_inv (h : Inv s) (hname : d.name = s.trigger.deviceName)
    (hphase : s.phase d = .unlisted ∨ s.phase d = .unregistered) (hcarrier : s.trigger.netDev = none → carrier = false) :
    Inv ((trigNotify .unregister d carrier s).setPhase d .unregistered) := by
  have hsplit : (trigNotify .unregister d carrier s).phase = s.phase ∧
      (∀ e, (trigNotify .unregister d carrier s).refs e = 0) ∧
      (trigNotify .unregister d carrier s).trigger.netDev = none ∧
      (trigNotify .unregister d carrier s).trigger.deviceName = s.trigger.deviceName ∧
      (trigNotify .unregister d carrier s).trigger.linkUp = false := by
    cases hnet : s.trigger.netDev with
    | none =>
      have hzero : ∀ e, s.refs e = 0 := fun e => by rw [h.balanced, hnet]; rfl
      simp [trigNotify, hname, hnet, hzero, setBaselineState, hcarrier hnet]
    | some old =>
      obtain rfl := h.watched_eq hname hnet
      -- the device is not up any more, so neither is the link
      have hlink : s.trigger.linkUp = false := by
        by_contra hup
        have hrun := h.running (by simpa using hup) old hnet
        rcases hphase with hp | hp <;> rw [hrun] at hp <;> cases hp
      simp only [trigNotify, hname, hnet, hlink, reduceCtorEq, if_false, ne_eq, not_true_eq_false, true_and, and_true]
      intro e
      by_cases hde : old = e
      · subst hde
        simp [devPut, h.balanced, hnet]
      · simp [devPut, h.balanced, hnet, hde, Ne.symm hde]
  obtain ⟨hph, hrefs, hnet, hdev, hlink⟩ := hsplit
  refine ⟨⟨?_, ?_, fun _ => hlink⟩, ?_, ?_⟩
  · intro e
    simp only [State.setPhase, hrefs, hnet, reduceCtorEq, if_false]
  · intro e he
    simp [State.setPhase, hnet] at he
  · intro hl
    simp [State.setPhase, hlink] at hl
  · intro e he hp
    simp only [State.setPhase, hdev] at he hp
    obtain rfl := NetDevice.ext_name (he.trans hname.symm)
    simp at hp

theorem notify_inv (h : Inv s) {evt : NetdevEvent} (hlegal : Legal s (.notify evt d carrier))
    (hharm : Harmless s (.notify evt d carrier)) :
    Inv ((trigNotify evt d carrier s).setPhase d (eventPhase (s.phase d) evt)) := by
  by_cases hname : d.name = s.trigger.deviceName
  · cases evt with
    | register => exact register_inv h hname
    | up => exact link_inv h hname (Or.inl rfl) (Or.inl hlegal) rfl
    | change =>
      have hup : s.phase d = .up := hlegal
      exact link_inv h hname (Or.inr (Or.inl rfl)) (Or.inr hlegal) (by simp [eventPhase, hup])
    | down => exact link_inv h hname (Or.inr (Or.inr rfl)) (Or.inr hlegal) rfl
    | unregister => exact unregister_inv h hname hlegal (hharm hname)
    | other =>
      have hsame : (trigNotify .other d carrier s).setPhase d (eventPhase (s.phase d) .other) = s := by
        simp [trigNotify, State.setPhase, eventPhase]
      rw [hsame]
      exact h
  · have hsame : trigNotify evt d carrier s = s := by
      simp [trigNotify, hname]
    rw [hsame]
    exact notify_other_inv h hname

end Notify

theorem step_inv (jiffies : ℕ → ℕ) {s : State} (h : Inv s) {op : Op} (hlegal : Legal s op) (hharm : Harmless s op) :
    Inv (step jiffies s op) := by
  cases op with
  | list d => exact list_inv h hlegal
  | unlist d => exact unlist_inv h hlegal
  | release d => exact release_inv h hlegal.1
  | storeName buf carrier => exact deviceNameStore_inv h hharm
  | storeMode buf => exact modeStore_inv h buf
  | storeInterval buf => exact intervalStore_inv h jiffies buf
  | notify evt d carrier => exact notify_inv h hlegal hharm
  | timer tx rx => exact trigTimer_inv h tx rx

/-! ## What the other steps break -/

theorem deviceNameStore_leaks {s : State} (h : Inv s) {buf : List UInt8} (carrier : Bool) (hlen : buf.length < ifnamsiz)
    {e : NetDevice} (hnet : s.trigger.netDev = some e) : ¬ Settled (deviceNameStore buf carrier s) := by
  intro hs
  have hone : s.refs e = 1 := by
    rw [h.balanced, hnet, if_pos rfl]
  unfold deviceNameStore at hs
  rw [if_neg (by omega)] at hs
  dsimp only at hs
  split at hs
  next hempty => exact e.named ((hs.watched e hnet).2.trans hempty)
  next =>
    split at hs
    next =>
      have hbal := hs.balanced e
      simp [hone, setBaselineState] at hbal
    next d _ =>
      have hbal := hs.balanced e
      by_cases hde : d = e
      · subst hde
        simp [devHold, hone, setBaselineState] at hbal
      · simp [devHold, hone, setBaselineState, hde, Ne.symm hde] at hbal

/-- The steps that are ruled out are those that break the balance, or bring a link up without a device. -/
theorem step_settled_iff (jiffies : ℕ → ℕ) {s : State} (h : Inv s) {op : Op} (hlegal : Legal s op) :
    Settled (step jiffies s op) ↔ Harmless s op := by
  refine ⟨?_, fun hharm => (step_inv jiffies h hlegal hharm).toSettled⟩
  intro hs
  cases op with
  | storeName buf carrier =>
    intro hlen
    by_contra hnet
    obtain ⟨e, he⟩ := Option.ne_none_iff_exists'.mp hnet
    exact deviceNameStore_leaks h carrier hlen he hs
  | notify evt d carrier =>
    cases evt with
    | unregister =>
      intro hname hnet
      have hlink := hs.linkless
      simpa [step, trigNotify, State.setPhase, hname, hnet, setBaselineState] using hlink
    | _ => trivial
  | _ => trivial

/-! ## Runs -/

/-- Nothing is held, and a device that was unregistered can be freed. -/
def Released (s : State) : Prop := (∀ d, s.refs d = 0) ∧ ∀ d, s.phase d = .unregistered → Legal s (.release d)

theorem Settled.deactivate {s : State} (h : Settled s) : Released (deactivate s) := by
  have hzero : ∀ d, (Netdev.deactivate s).refs d = 0 := by
    intro d
    unfold Netdev.deactivate
    split
    next hnet =>
      rw [h.balanced, hnet]
      rfl
    next e hnet =>
      by_cases hde : e = d
      · subst hde
        simp [devPut, h.balanced, hnet]
      · simp [devPut, h.balanced, hnet, hde, Ne.symm hde]
  exact ⟨hzero, fun d hd => ⟨hd, hzero d⟩⟩

theorem Settled.release {s : State} (h : Settled s) {d : NetDevice} (hd : s.phase d = .unregistered) :
    Legal s (.release d) := by
  refine ⟨hd, ?_⟩
  rw [h.balanced, if_neg]
  intro hnet
  have hreg := (h.watched d hnet).1
  rw [hd] at hreg
  cases hreg

/-- In a legal order without a name stored over a watched device and without an end told of with a carrier when none
is watched, the references balance after every step, and nothing is left of them at the end. -/
theorem netdev_trigger_references (jiffies : ℕ → ℕ) (brightness : ℕ) (phase : NetDevice → Phase) (ops : List Op)
    (hlegal : Along (step jiffies) Legal (activate jiffies brightness phase) ops)
    (hharm : Along (step jiffies) Harmless (activate jiffies brightness phase) ops) :
    Settled (runSteps (step jiffies) (activate jiffies brightness phase) ops) ∧
      Released (deactivate (runSteps (step jiffies) (activate jiffies brightness phase) ops)) ∧
      ∀ d, (runSteps (step jiffies) (activate jiffies brightness phase) ops).phase d = .unregistered →
        Legal (runSteps (step jiffies) (activate jiffies brightness phase) ops) (.release d) := by
  have hinv : Inv (runSteps (step jiffies) (activate jiffies brightness phase) ops) :=
    Along.preserves (fun s op h hop => step_inv jiffies h hop.1 hop.2) (activate_inv jiffies brightness phase)
      (hlegal.and hharm)
  have hsettled := hinv.toSettled
  exact ⟨hsettled, hsettled.deactivate, fun d hd => hsettled.release hd⟩

/-! ## Two runs -/

def eth0 : NetDevice := ⟨.lit "eth0", by decide⟩

def storeEth0 : Op := .storeName [101, 116, 104, 48, 10] true

/-- The device is watched from its registration on, goes up and down and away. -/
def watchedLife : List Op :=
  [storeEth0, .list eth0, .notify .register eth0 false, .notify .up eth0 true, .notify .down eth0 true, .unlist eth0,
    .notify .unregister eth0 false, .release eth0]

theorem netdev_trigger_references_life :
    Released (deactivate (runSteps (step id) (activate id 0 fun _ => .absent) watchedLife)) :=
  (netdev_trigger_references id 0 (fun _ => .absent) watchedLife (by decide) (by decide)).2.1

theorem netdev_trigger_leaks_restored_name :
    Along (step id) Legal (activate id 0 fun _ => .down) [storeEth0, storeEth0] ∧
      ¬ Settled (runSteps (step id) (activate id 0 fun _ => .down) [storeEth0, storeEth0]) ∧
      ¬ Released (deactivate (runSteps (step id) (activate id 0 fun _ => .down) [storeEth0, storeEth0])) := by
  refine ⟨by decide, ?_, ?_⟩
  · intro h
    exact absurd (h.balanced eth0) (by decide)
  · intro h
    exact absurd (h.1 eth0) (by decide)

end Neufbox.Leds.Netdev
