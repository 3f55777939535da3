import Neufbox.Swconfig.Uci

/-! # Which settings reach a switch

The settings that a configuration has for a device, and when they are what is sent: no section of another
device, or without a number of its own, may be taken for one of this device; the other global settings come
first in the file; and no early setting may be left from a call before. -/
namespace Neufbox.Swconfig
open RunAlong
set_option autoImplicit false
set_option maxHeartbeats 250000
set_option maxRecDepth 120000

/-! ## What a configuration says -/

def ownOption (key : String) (s : UciSection) : Option String := readOption key none s

def settingOf (dev : LibDev) (atype : AttrGroup) (n : ℤ) (o : UciOption) : Option Setting :=
  o.string.bind fun val =>
    if o.name = "device" ∨ earlyEntry atype o.name ≠ none then none
    else (swlibLookupAttr dev atype o.name).map fun attr => ⟨attr, n, val⟩

/-- The settings of a section, without the early ones. -/
def sectionSettings (dev : LibDev) (atype : AttrGroup) (n : ℤ) (s : UciSection) : List Setting :=
  s.options.filterMap (settingOf dev atype n)

/-- A section for a port or a vlan: the group, and the option with its number. -/
def numbered (s : UciSection) : Option (AttrGroup × String) :=
  if s.type = "switch_port" then some (.port, "port")
  else if s.type = "switch_vlan" then some (.vlan, "vlan")
  else none

/-- The settings of a section for a port or a vlan of the device. -/
def ownSettings (dev : LibDev) (s : UciSection) : List Setting :=
  match numbered s with
  | none => []
  | some (atype, key) =>
    if ownOption "device" s = some dev.devName then
      match sectionNumber (ownOption key s) with
      | none => []
      | some n => sectionSettings dev atype n s
    else []

/-- The sections before the one of the switch, and from it on. -/
def before (dev : LibDev) (sections : List UciSection) : List UciSection := sections.takeWhile fun s => !isSwitchOf dev s

def fromSwitch (dev : LibDev) (sections : List UciSection) : List UciSection := sections.dropWhile fun s => !isSwitchOf dev s

/-- The settings that are not early, in the order of the file. -/
def inFileOrder (dev : LibDev) (sections : List UciSection) (s : UciSection) : List Setting :=
  (before dev sections).flatMap (ownSettings dev) ++ sectionSettings dev .global 0 s ++
    (fromSwitch dev sections).flatMap (ownSettings dev)

/-- What is to be sent. -/
def expected (dev : LibDev) (sections : List UciSection) : List Sent :=
  match sections.find? (isSwitchOf dev) with
  | none => []
  | some s => earlySent dev (fun n => ownOption n.text s) ++ (inFileOrder dev sections s).map .set ++ applySent dev

/-! ## What is collected -/

theorem readOption_or (key : String) (old : Option String) (s : UciSection) :
    readOption key old s = (ownOption key s).or old := by
  rw [ownOption, readOption, readOption]
  induction s.options generalizing old with
  | nil => rfl
  | cons o os ih =>
    have hnone := ih (if o.name = key ∧ o.string ≠ none then o.string else none)
    rw [runSteps_cons, runSteps_cons, ih, hnone, Option.or_assoc]
    congr 1
    split
    · rename_i h
      obtain ⟨val, hval⟩ := Option.ne_none_iff_exists'.mp h.2
      rw [hval]
      rfl
    · rfl

theorem mapSettings_settings (dev : LibDev) (atype : AttrGroup) (n : ℤ) (s : UciSection) (c : Collected) :
    (swlibMapSettings dev atype n s c).settings = c.settings ++ sectionSettings dev atype n s := by
  rw [swlibMapSettings, sectionSettings]
  induction s.options generalizing c with
  | nil => exact (List.append_nil _).symm
  | cons o os ih =>
    have hone : (mapOption dev atype n c o).settings = c.settings ++ (settingOf dev atype n o).toList := by
      rw [mapOption, settingOf]
      cases o.string with
      | none => exact (List.append_nil _).symm
      | some val =>
        by_cases hdevice : o.name = "device"
        · simp [hdevice]
        · cases earlyEntry atype o.name with
          | some m => simp [hdevice]
          | none =>
            cases swlibLookupAttr dev atype o.name with
            | none => simp [hdevice]
            | some attr => simp [hdevice]
    rw [runSteps_cons, ih, hone, List.append_assoc, List.filterMap_cons]
    congr 1
    cases settingOf dev atype n o with
    | none => rfl
    | some setting => rfl

theorem earlyEntry_global (name : String) (n : EarlyName) : earlyEntry .global name = some n ↔ name = n.text := by
  rw [earlyEntry, if_pos rfl]
  constructor
  · intro h
    have hfound := List.find?_some h
    exact of_decide_eq_true hfound
  · rintro rfl
    cases n <;> decide

theorem text_ne_device (n : EarlyName) : n.text ≠ "device" := by cases n <;> decide

/-- A section of another group leaves the table alone. -/
theorem mapSettings_early_other (dev : LibDev) {atype : AttrGroup} (hatype : atype ≠ .global) (n : ℤ) (s : UciSection)
    (c : Collected) : (swlibMapSettings dev atype n s c).early = c.early := by
  apply run_preserves (fun c' : Collected => c'.early = c.early)
  · intro c' o hc
    have hentry : earlyEntry atype o.name = none := if_neg hatype
    rw [mapOption, hentry]
    split
    · exact hc
    · split
      · exact hc
      · simp only
        split <;> exact hc
  · rfl

theorem mapSettings_early_global (dev : LibDev) (n : ℤ) (s : UciSection) (c : Collected) (m : EarlyName) :
    (swlibMapSettings dev .global n s c).early m = readOption m.text (c.early m) s := by
  rw [swlibMapSettings, readOption]
  induction s.options generalizing c with
  | nil => rfl
  | cons o os ih =>
    have hone : (mapOption dev .global n c o).early m =
        if o.name = m.text ∧ o.string ≠ none then o.string else c.early m := by
      rw [mapOption]
      cases hval : o.string with
      | none => simp
      | some val =>
        by_cases hname : o.name = m.text
        · have hentry : earlyEntry .global m.text = some m := (earlyEntry_global _ _).mpr rfl
          simp [hname, text_ne_device m, hentry]
        · have hentry : ∀ k, earlyEntry .global o.name = some k → m ≠ k := by
            rintro k hk rfl
            exact hname ((earlyEntry_global _ _).mp hk)
          simp only [hname, false_and, if_false]
          split
          · rfl
          · split
            · rename_i k hk
              exact Function.update_of_ne (hentry k hk) _ _
            · split <;> rfl
    rw [runSteps_cons, ih, hone, runSteps_cons]

/-! ## Sections that are taken for those of a device -/

def Locals.get (l : Locals) : AttrGroup → Option String
  | .port => l.port
  | .vlan => l.vlan
  | .global => none

/-- The pointers behind a section. -/
def nextLocals (l : Locals) (s : UciSection) : Locals :=
  match numbered s with
  | some (.port, key) => { l with port := readOption key l.port s }
  | some (.vlan, key) => { l with vlan := readOption key l.vlan s }
  | _ => l

/-- The settings that are taken from a section. -/
def takenFrom (dev : LibDev) (l : Locals) (s : UciSection) : List Setting :=
  match numbered s with
  | none => []
  | some (atype, key) =>
    match sectionNumber (readOption key (l.get atype) s) with
    | none => []
    | some n => sectionSettings dev atype n s

def taken (dev : LibDev) : Locals → List UciSection → List Setting
  | _, [] => []
  | l, s :: rest => takenFrom dev l s ++ taken dev (nextLocals l s) rest

theorem mapNumbered_eq (dev : LibDev) {atype : AttrGroup} (hatype : atype ≠ .global) (number : Option ℤ) (s : UciSection)
    (c : Collected) :
    (match number with | none => c | some n => swlibMapSettings dev atype n s c).early = c.early ∧
      (match number with | none => c | some n => swlibMapSettings dev atype n s c).settings =
        c.settings ++ match number with | none => [] | some n => sectionSettings dev atype n s := by
  cases number with
  | none => exact ⟨rfl, (List.append_nil _).symm⟩
  | some n => exact ⟨mapSettings_early_other dev hatype n s c, mapSettings_settings dev atype n s c⟩

theorem mapSection_eq (dev : LibDev) (st : Locals × Collected) (s : UciSection) :
    (mapSection dev st s).1 = nextLocals st.1 s ∧ (mapSection dev st s).2.early = st.2.early ∧
      (mapSection dev st s).2.settings = st.2.settings ++ takenFrom dev st.1 s := by
  rw [mapSection, nextLocals, takenFrom, numbered]
  split
  · exact ⟨rfl, mapNumbered_eq dev (by decide) _ s st.2⟩
  · split
    · exact ⟨rfl, mapNumbered_eq dev (by decide) _ s st.2⟩
    · exact ⟨rfl, rfl, (List.append_nil _).symm⟩

theorem mapSections_eq (dev : LibDev) (sections : List UciSection) (st : Locals × Collected) :
    (runSteps (mapSection dev) st sections).2.early = st.2.early ∧
      (runSteps (mapSection dev) st sections).2.settings = st.2.settings ++ taken dev st.1 sections := by
  induction sections generalizing st with
  | nil => exact ⟨rfl, (List.append_nil _).symm⟩
  | cons s rest ih =>
    obtain ⟨hlocals, hearly, hsettings⟩ := mapSection_eq dev st s
    obtain ⟨ihearly, ihsettings⟩ := ih (mapSection dev st s)
    rw [runSteps_cons, ihearly, ihsettings, hlocals, hearly, hsettings, taken, List.append_assoc]
    exact ⟨rfl, rfl⟩

/-- A section with settings that the device knows and with a number, of its own or left over, that is not a
section of the device with a number of its own. -/
def Stray (dev : LibDev) (l : Locals) (s : UciSection) : Prop :=
  ∃ atype key n, numbered s = some (atype, key) ∧ sectionNumber (readOption key (l.get atype) s) = some n ∧
    sectionSettings dev atype n s ≠ [] ∧ ¬(ownOption "device" s = some dev.devName ∧ ownOption key s ≠ none)

theorem readOption_of_own {key : String} {s : UciSection} (h : ownOption key s ≠ none) (old : Option String) :
    readOption key old s = ownOption key s := by
  obtain ⟨val, hval⟩ := Option.ne_none_iff_exists'.mp h
  rw [readOption_or, hval]
  rfl

/-- Either a section is a stray one, and more is taken from it than is its own, or what is taken is its own. -/
theorem takenFrom_cases (dev : LibDev) (l : Locals) (s : UciSection) :
    Stray dev l s ∧ ownSettings dev s = [] ∧ takenFrom dev l s ≠ [] ∨
      ¬Stray dev l s ∧ takenFrom dev l s = ownSettings dev s := by
  rw [takenFrom, ownSettings]
  cases hnumbered : numbered s with
  | none =>
    refine Or.inr ⟨?_, rfl⟩
    rintro ⟨atype, key, n, hn, -⟩
    rw [hnumbered] at hn
    cases hn
  | some r =>
    obtain ⟨atype, key⟩ := r
    simp only
    by_cases hown : ownOption "device" s = some dev.devName ∧ ownOption key s ≠ none
    · refine Or.inr ⟨?_, ?_⟩
      · rintro ⟨atype', key', n, hn, -, -, hnot⟩
        rw [hnumbered] at hn
        obtain ⟨rfl, rfl⟩ := Prod.mk.inj (Option.some.inj hn)
        exact hnot hown
      · rw [if_pos hown.1, readOption_of_own hown.2]
    · have hnone : (if ownOption "device" s = some dev.devName then
          match sectionNumber (ownOption key s) with
          | none => []
          | some n => sectionSettings dev atype n s
        else []) = ([] : List Setting) := by
        split
        · rename_i hdevice
          have hkey : ownOption key s = none := by
            by_contra hne
            exact hown ⟨hdevice, hne⟩
          rw [hkey]
          rfl
        · rfl
      rw [hnone]
      cases hnumber : sectionNumber (readOption key (l.get atype) s) with
      | none =>
        refine Or.inr ⟨?_, rfl⟩
        rintro ⟨atype', key', n, hn, hnum, -⟩
        rw [hnumbered] at hn
        obtain ⟨rfl, rfl⟩ := Prod.mk.inj (Option.some.inj hn)
        rw [hnumber] at hnum
        cases hnum
      | some n =>
        simp only
        by_cases hempty : sectionSettings dev atype n s = []
        · refine Or.inr ⟨?_, hempty⟩
          rintro ⟨atype', key', n', hn, hnum, hne, -⟩
          rw [hnumbered] at hn
          obtain ⟨rfl, rfl⟩ := Prod.mk.inj (Option.some.inj hn)
          rw [hnumber] at hnum
          obtain rfl := Option.some.inj hnum
          exact hne hempty
        · exact Or.inl ⟨⟨atype, key, n, hnumbered, hnumber, hempty, hown⟩, trivial, hempty⟩

theorem ownSettings_sublist (dev : LibDev) (l : Locals) (sections : List UciSection) :
    (sections.flatMap (ownSettings dev)).Sublist (taken dev l sections) := by
  induction sections generalizing l with
  | nil => exact List.Sublist.refl _
  | cons s rest ih =>
    rw [List.flatMap_cons, taken]
    apply List.Sublist.append
    · rcases takenFrom_cases dev l s with ⟨-, hown, -⟩ | ⟨-, heq⟩
      · rw [hown]
        exact List.nil_sublist _
      · rw [heq]
    · exact ih _

/-- Nothing else is taken when there is no stray section. -/
theorem taken_eq_iff (dev : LibDev) (l : Locals) (sections : List UciSection) :
    taken dev l sections = sections.flatMap (ownSettings dev) ↔
      Along nextLocals (fun l s => ¬Stray dev l s) l sections := by
  induction sections generalizing l with
  | nil => exact iff_of_true rfl trivial
  | cons s rest ih =>
    rw [taken, List.flatMap_cons, along_cons, ← ih]
    have hrest := (ownSettings_sublist dev (nextLocals l s) rest).length_le
    rcases takenFrom_cases dev l s with ⟨hstray, hown, hne⟩ | ⟨hstray, heq⟩
    · refine iff_of_false ?_ (fun h => h.1 hstray)
      intro h
      have hlen := congrArg List.length h
      rw [List.length_append, List.length_append, hown, List.length_nil] at hlen
      have hpos := List.length_pos_of_ne_nil hne
      omega
    · rw [heq, List.append_cancel_left_eq]
      exact (and_iff_right hstray).symm

/-! ## Order -/

theorem sectionSettings_atype {dev : LibDev} {atype : AttrGroup} {n : ℤ} {s : UciSection} {x : Setting}
    (h : x ∈ sectionSettings dev atype n s) : x.attr.atype = atype := by
  obtain ⟨o, -, ho⟩ := List.mem_filterMap.mp h
  obtain ⟨val, -, hval⟩ := Option.bind_eq_some_iff.mp ho
  split at hval
  · cases hval
  · obtain ⟨attr, hattr, rfl⟩ := Option.map_eq_some_iff.mp hval
    have hfound := List.find?_some hattr
    rw [decide_eq_true_iff] at hfound
    exact hfound.1

theorem ownSettings_atype {dev : LibDev} {s : UciSection} {x : Setting} (h : x ∈ ownSettings dev s) :
    x.attr.atype ≠ .global := by
  rw [ownSettings] at h
  cases hnumbered : numbered s with
  | none =>
    rw [hnumbered] at h
    cases h
  | some r =>
    obtain ⟨atype, key⟩ := r
    have hatype : atype ≠ .global := by
      rw [numbered] at hnumbered
      split at hnumbered
      · cases hnumbered
        decide
      · split at hnumbered
        · cases hnumbered
          decide
        · cases hnumbered
    rw [hnumbered] at h
    simp only at h
    split at h
    · split at h
      · cases h
      · rw [sectionSettings_atype h]
        exact hatype
    · cases h

/-- Settings of different groups do not commute. -/
theorem global_append_comm {global others : List Setting} (hglobal : ∀ x ∈ global, x.attr.atype = .global)
    (hothers : ∀ x ∈ others, x.attr.atype ≠ .global) :
    global ++ others = others ++ global ↔ global = [] ∨ others = [] := by
  constructor
  · intro h
    cases global with
    | nil => exact Or.inl rfl
    | cons g gs =>
      cases others with
      | nil => exact Or.inr rfl
      | cons x xs =>
        have hhead : g = x := (List.cons.inj h).1
        have hg := hglobal g List.mem_cons_self
        rw [hhead] at hg
        exact absurd hg (hothers x List.mem_cons_self)
  · rintro (rfl | rfl)
    · rw [List.nil_append, List.append_nil]
    · rw [List.nil_append, List.append_nil]

/-- The other settings of the switch come before those of its ports and vlans, if it has both. -/
def InOrder (dev : LibDev) (sections : List UciSection) (s : UciSection) : Prop :=
  sectionSettings dev .global 0 s = [] ∨ (before dev sections).flatMap (ownSettings dev) = []

theorem flatMap_ownSettings (dev : LibDev) (sections : List UciSection) : sections.flatMap (ownSettings dev) =
    (before dev sections).flatMap (ownSettings dev) ++ (fromSwitch dev sections).flatMap (ownSettings dev) := by
  rw [← List.flatMap_append, before, fromSwitch, List.takeWhile_append_dropWhile]

theorem inFileOrder_iff (dev : LibDev) (sections : List UciSection) (s : UciSection) :
    sectionSettings dev .global 0 s ++ sections.flatMap (ownSettings dev) = inFileOrder dev sections s ↔
      InOrder dev sections s := by
  rw [flatMap_ownSettings, inFileOrder, ← List.append_assoc, List.append_cancel_right_eq]
  apply global_append_comm
  · exact fun x hx => sectionSettings_atype hx
  · intro x hx
    obtain ⟨s', -, hs'⟩ := List.mem_flatMap.mp hx
    exact ownSettings_atype hs'

/-! ## Early settings -/

/-- An early setting that the device knows is not left from another call. -/
def EarlyOwn (dev : LibDev) (early : Early) (s : UciSection) : Prop :=
  ∀ n : EarlyName, swlibLookupAttr dev .global n.text ≠ none → ownOption n.text s = none → early n = none

/-- The part of an early setting. -/
def earlyItem (dev : LibDev) (n : EarlyName) (val : Option String) : List Sent :=
  match swlibLookupAttr dev .global n.text, val with
  | some attr, some val => [.set ⟨attr, 0, val⟩]
  | _, _ => []

theorem earlySent_eq (dev : LibDev) (early : Early) :
    earlySent dev early = earlyItem dev .reset (early .reset) ++ earlyItem dev .enableVlan (early .enableVlan) := by
  show _ ++ (_ ++ []) = _
  rw [List.append_nil]
  rfl

theorem earlyItem_cases (dev : LibDev) (n : EarlyName) (own old : Option String) :
    earlyItem dev n own = [] ∧ earlyItem dev n (own.or old) ≠ [] ∧
        ¬(swlibLookupAttr dev .global n.text ≠ none → own = none → old = none) ∨
      earlyItem dev n (own.or old) = earlyItem dev n own ∧
        (swlibLookupAttr dev .global n.text ≠ none → own = none → old = none) := by
  unfold earlyItem
  cases swlibLookupAttr dev .global n.text with
  | none => exact Or.inr ⟨rfl, fun h => absurd rfl h⟩
  | some attr =>
    cases own with
    | some val => exact Or.inr ⟨rfl, fun _ h => by cases h⟩
    | none =>
      cases old with
      | none => exact Or.inr ⟨rfl, fun _ _ => rfl⟩
      | some val =>
        refine Or.inl ⟨rfl, List.cons_ne_nil _ _, fun h => ?_⟩
        cases h (Option.some_ne_none _) rfl

theorem earlyItem_length (dev : LibDev) (n : EarlyName) (own old : Option String) :
    (earlyItem dev n own).length ≤ (earlyItem dev n (own.or old)).length ∧
      ((earlyItem dev n own).length = (earlyItem dev n (own.or old)).length ↔
        (swlibLookupAttr dev .global n.text ≠ none → own = none → old = none)) := by
  rcases earlyItem_cases dev n own old with ⟨hown, hne, hnot⟩ | ⟨heq, hok⟩
  · have hpos := List.length_pos_of_ne_nil hne
    rw [hown]
    refine ⟨Nat.zero_le _, iff_of_false ?_ hnot⟩
    rw [List.length_nil]
    omega
  · rw [heq]
    exact ⟨le_rfl, iff_of_true rfl hok⟩

theorem earlyOwn_iff (dev : LibDev) (early : Early) (s : UciSection) : EarlyOwn dev early s ↔
    (swlibLookupAttr dev .global EarlyName.reset.text ≠ none → ownOption EarlyName.reset.text s = none →
        early .reset = none) ∧
      (swlibLookupAttr dev .global EarlyName.enableVlan.text ≠ none → ownOption EarlyName.enableVlan.text s = none →
        early .enableVlan = none) := by
  constructor
  · exact fun h => ⟨h .reset, h .enableVlan⟩
  · rintro ⟨hreset, henable⟩ n
    cases n with
    | reset => exact hreset
    | enableVlan => exact henable

theorem earlySent_length (dev : LibDev) (early : Early) (s : UciSection) :
    (earlySent dev fun n => ownOption n.text s).length ≤
        (earlySent dev fun n => (ownOption n.text s).or (early n)).length ∧
      ((earlySent dev fun n => ownOption n.text s).length =
        (earlySent dev fun n => (ownOption n.text s).or (early n)).length ↔ EarlyOwn dev early s) := by
  obtain ⟨hle, hiff⟩ := earlyItem_length dev .reset (ownOption EarlyName.reset.text s) (early .reset)
  obtain ⟨hle', hiff'⟩ := earlyItem_length dev .enableVlan (ownOption EarlyName.enableVlan.text s) (early .enableVlan)
  rw [earlySent_eq, earlySent_eq, List.length_append, List.length_append, earlyOwn_iff, ← hiff, ← hiff']
  constructor
  · exact Nat.add_le_add hle hle'
  · constructor
    · intro h
      constructor <;> omega
    · rintro ⟨h, h'⟩
      rw [h, h']

theorem earlySent_own {dev : LibDev} {early : Early} {s : UciSection} (h : EarlyOwn dev early s) :
    (earlySent dev fun n => (ownOption n.text s).or (early n)) = earlySent dev fun n => ownOption n.text s := by
  have hitem : ∀ n : EarlyName, earlyItem dev n ((ownOption n.text s).or (early n)) =
      earlyItem dev n (ownOption n.text s) := by
    intro n
    rcases earlyItem_cases dev n (ownOption n.text s) (early n) with ⟨-, -, hnot⟩ | ⟨heq, -⟩
    · exact absurd (h n) hnot
    · exact heq
  rw [earlySent_eq, earlySent_eq, hitem, hitem]

/-! ## Calls -/

theorem applyFromUci_found {dev : LibDev} {sections : List UciSection} {s : UciSection}
    (hs : sections.find? (isSwitchOf dev) = some s) (stack : Locals) (early : Early) :
    swlibApplyFromUci dev sections stack early =
      ((earlySent dev fun n => (ownOption n.text s).or (early n)) ++
          (sectionSettings dev .global 0 s ++ taken dev stack sections).map .set ++ applySent dev,
        fun n => (ownOption n.text s).or (early n)) := by
  obtain ⟨hearly, hsettings⟩ := mapSections_eq dev sections (stack, swlibMapSettings dev .global 0 s ⟨early, []⟩)
  have hglobal : (swlibMapSettings dev .global 0 s ⟨early, []⟩).early = fun n => (ownOption n.text s).or (early n) := by
    funext n
    rw [mapSettings_early_global, readOption_or]
  rw [mapSettings_settings, List.nil_append] at hsettings
  rw [hglobal] at hearly
  rw [swlibApplyFromUci, hs]
  simp only
  rw [hearly, hsettings]

/-- Exactly when a call sends what the configuration says. -/
theorem applyFromUci_exact_iff (dev : LibDev) (sections : List UciSection) (stack : Locals) (early : Early) :
    (swlibApplyFromUci dev sections stack early).1 = expected dev sections ↔
      ∀ s ∈ sections.find? (isSwitchOf dev), EarlyOwn dev early s ∧
        Along nextLocals (fun l s => ¬Stray dev l s) stack sections ∧ InOrder dev sections s := by
  rw [expected]
  cases hs : sections.find? (isSwitchOf dev) with
  | none =>
    rw [swlibApplyFromUci, hs]
    exact iff_of_true rfl (fun s h => by cases h)
  | some s =>
    rw [applyFromUci_found hs]
    simp only [Option.mem_def, Option.some.injEq, forall_eq']
    obtain ⟨hearlyLe, hearly⟩ := earlySent_length dev early s
    have hsub := ownSettings_sublist dev stack sections
    have htotal : (inFileOrder dev sections s).length =
        (sectionSettings dev .global 0 s).length + (sections.flatMap (ownSettings dev)).length := by
      rw [flatMap_ownSettings, inFileOrder, List.length_append, List.length_append, List.length_append]
      omega
    rw [List.append_cancel_right_eq]
    constructor
    · intro h
      -- what is sent is never less, so both parts have the right lengths
      have hlen := congrArg List.length h
      rw [List.length_append, List.length_append, List.length_map, List.length_map, List.length_append, htotal] at hlen
      have hle := hsub.length_le
      have hown : EarlyOwn dev early s := hearly.mp (by omega)
      have htaken : taken dev stack sections = sections.flatMap (ownSettings dev) :=
        (hsub.eq_of_length (by omega)).symm
      rw [earlySent_own hown, List.append_cancel_left_eq, htaken] at h
      have hmap := (List.map_injective_iff.mpr fun _ _ h => Sent.set.inj h) h
      exact ⟨hown, (taken_eq_iff dev stack sections).mp htaken, (inFileOrder_iff dev sections s).mp hmap⟩
    · rintro ⟨hown, hstray, horder⟩
      rw [earlySent_own hown, (taken_eq_iff dev stack sections).mpr hstray, (inFileOrder_iff dev sections s).mpr horder]

/-! ## Several calls -/

structure Call where
  dev : LibDev
  sections : List UciSection
  stack : Locals

/-- The table behind some calls. -/
def earlyAfter (early : Early) (calls : List Call) : Early :=
  runSteps (fun early c => (swlibApplyFromUci c.dev c.sections c.stack early).2) early calls

/-- The configuration of a call has the early setting. -/
def SetsEarly (n : EarlyName) (c : Call) : Prop :=
  ∃ s ∈ c.sections.find? (isSwitchOf c.dev), ownOption n.text s ≠ none

theorem applyFromUci_early (c : Call) (early : Early) (n : EarlyName) :
    (swlibApplyFromUci c.dev c.sections c.stack early).2 n = none ↔ early n = none ∧ ¬SetsEarly n c := by
  rw [SetsEarly]
  cases hs : c.sections.find? (isSwitchOf c.dev) with
  | none =>
    rw [swlibApplyFromUci, hs]
    simp
  | some s =>
    rw [applyFromUci_found hs]
    simp only [Option.mem_def, Option.some.injEq, exists_eq_left', not_not, Option.or_eq_none_iff]
    exact and_comm

theorem earlyAfter_none_iff (calls : List Call) (early : Early) (n : EarlyName) :
    earlyAfter early calls n = none ↔ early n = none ∧ ∀ c ∈ calls, ¬SetsEarly n c := by
  induction calls generalizing early with
  | nil => exact (and_iff_left (fun c h => by cases h)).symm
  | cons c calls ih =>
    rw [earlyAfter, runSteps_cons, ← earlyAfter, ih, applyFromUci_early, List.forall_mem_cons, and_assoc]

/-- The condition on a call behind others: an early setting that the device knows and that is missing in this
configuration was not in one before; no section is a stray one; and the settings of the switch come first. -/
def CallClean (pre : List Call) (c : Call) : Prop :=
  ∀ s ∈ c.sections.find? (isSwitchOf c.dev),
    (∀ n : EarlyName, swlibLookupAttr c.dev .global n.text ≠ none → ownOption n.text s = none →
      ∀ c' ∈ pre, ¬SetsEarly n c') ∧
    Along nextLocals (fun l s => ¬Stray c.dev l s) c.stack c.sections ∧ InOrder c.dev c.sections s

/-- Behind any calls, a call sends exactly the settings of its configuration when it is clean. -/
theorem uci_settings_exact_iff (pre : List Call) (c : Call) :
    (swlibApplyFromUci c.dev c.sections c.stack (earlyAfter (fun _ => none) pre)).1 = expected c.dev c.sections ↔
      CallClean pre c := by
  rw [applyFromUci_exact_iff, CallClean]
  apply forall_congr'
  intro s
  apply imp_congr_right
  intro _
  apply and_congr_left
  intro _
  apply forall_congr'
  intro n
  rw [earlyAfter_none_iff, and_iff_right rfl]

/-! ## A section of another switch -/

def switchEth0 : LibDev := ⟨"eth0", [⟨.global, 0, "apply"⟩, ⟨.vlan, 0, "ports"⟩]⟩

/-- A switch section, and a vlan of another switch. -/
def twoSwitches : List UciSection :=
  [⟨"switch", "eth0", []⟩, ⟨"switch", "eth1", []⟩,
    ⟨"switch_vlan", "eth1_1", [⟨"device", some "eth1"⟩, ⟨"vlan", some "1"⟩, ⟨"ports", some "0 1 5"⟩]⟩]

theorem uci_vlan_of_other_switch_sent :
    expected switchEth0 twoSwitches = [.apply ⟨.global, 0, "apply"⟩] ∧
      (swlibApplyFromUci switchEth0 twoSwitches ⟨none, none⟩ (earlyAfter (fun _ => none) [])).1 =
        [.set ⟨⟨.vlan, 0, "ports"⟩, 1, "0 1 5"⟩, .apply ⟨.global, 0, "apply"⟩] := by
  constructor <;> decide

end Neufbox.Swconfig
