import Neufbox.Packages.MconfDepends
import Neufbox.Packages.MenuOrder

/-! # The lines of a menu entry

Where occurrences of one name ask for the same, and no entry is read with flags from before, the lines are those
that the entries ask for; so the order of the entries does not matter. -/
namespace Neufbox.Packages.Menus
open RunAlong Traverse Seek
set_option autoImplicit false
set_option maxHeartbeats 250000
set_option maxRecDepth 120000

/-! ## The table of lines -/

theorem lookup_addLine (dep : AList fun _ : Text => Mode) (key key' : Text) (mode : Mode) :
    (addLine dep key mode).lookup key' =
      if key' = key ∧ dep.lookup key ≠ some .select then some mode else dep.lookup key' := by
  rw [addLine]
  by_cases hselect : dep.lookup key = some .select
  · rw [if_pos hselect, if_neg fun h => h.2 hselect]
  · rw [if_neg hselect]
    by_cases hkey : key' = key
    · subst hkey
      rw [AList.lookup_insert, if_pos ⟨rfl, hselect⟩]
    · rw [AList.lookup_insert_ne hkey, if_neg fun h => hkey h.1]

/-- The line is there, or one that wins over it. -/
def Provides (dep : AList fun _ : Text => Mode) (line : Text × Mode) : Prop :=
  dep.lookup line.1 = some .select ∨ dep.lookup line.1 = some line.2

theorem provides_addLine (dep : AList fun _ : Text => Mode) (key : Text) (mode : Mode) :
    Provides (addLine dep key mode) (key, mode) := by
  rw [Provides, lookup_addLine]
  by_cases hselect : dep.lookup key = some .select
  · rw [if_neg fun h => h.2 hselect]
    exact Or.inl hselect
  · rw [if_pos ⟨rfl, hselect⟩]
    exact Or.inr rfl

theorem Provides.addLine {dep : AList fun _ : Text => Mode} {line : Text × Mode} (h : Provides dep line) (key : Text)
    (mode : Mode) : Provides (addLine dep key mode) line := by
  rw [Provides, lookup_addLine]
  by_cases hnew : line.1 = key ∧ dep.lookup key ≠ some .select
  · obtain ⟨hkey, hselect⟩ := hnew
    have hmode : dep.lookup line.1 = some line.2 := h.resolve_left (hkey ▸ hselect)
    rw [if_pos ⟨hkey, hselect⟩]
    cases mode with
    | select => exact Or.inl rfl
    | depends =>
      cases hline : line.2 with
      | select =>
        rw [hline, hkey] at hmode
        exact absurd hmode hselect
      | depends => exact Or.inr rfl
  · rw [if_neg hnew]
    exact h

/-! ## Visits -/

section Visits
variable {dollarOne : List MatchEvent → Option Text} {env : PackageSet} {pkgname : Text}

theorem readFlags_own {st : MenuState} {occ : Occurrence}
    (h : entryFlags occ.entry = [] → ∀ stale ∈ dollarOne (.noFlags :: st.trace), '+' ∉ stale ∧ '@' ∉ stale) (c : Char)
    (hc : c = '+' ∨ c = '@') :
    (readFlags dollarOne st occ.entry).any (c ∈ ·) = (some (entryFlags occ.entry)).any (c ∈ ·) := by
  rw [readFlags]
  by_cases hflags : entryFlags occ.entry = []
  · have hstale := h hflags
    rw [if_pos hflags, hflags]
    cases hgroup : dollarOne (.noFlags :: st.trace) with
    | none => simp
    | some stale =>
      obtain ⟨hplus, hat⟩ := hstale stale hgroup
      rcases hc with rfl | rfl
      · simp [hplus]
      · simp [hat]
  · rw [if_neg hflags]

/-- All a visit can do, when its flags are its own. -/
theorem visitDepend_cases {st : MenuState} {occ : Occurrence} (h : ReadsOwn dollarOne env st occ) :
    ((entryName occ.entry ∈ st.seen ∨ buildOnly env (entryName occ.entry) = true) ∧
      ∃ st', visitDepend dollarOne env pkgname st occ = .done st' ∧ st'.seen = st.seen ∧ st'.dep = st.dep) ∨
    (entryName occ.entry ∉ st.seen ∧ nested env pkgname occ = [] ∧ ∃ line st', emits env pkgname occ = some line ∧
      visitDepend dollarOne env pkgname st occ = .done st' ∧ st'.seen = entryName occ.entry :: st.seen ∧
      st'.dep = addLine st.dep line.1 line.2) ∨
    (entryName occ.entry ∉ st.seen ∧ ∃ st' key,
      (emits env pkgname occ = if occ.onlyDep then none else some (key, .select)) ∧
      visitDepend dollarOne env pkgname st occ = .enter st' (nested env pkgname occ) (MenuState.leave occ.onlyDep key) ∧
      st'.seen = entryName occ.entry :: st.seen ∧ st'.dep = st.dep) := by
  rw [visitDepend, visitEntry]
  by_cases hseen : entryName occ.entry ∈ st.seen
  · exact Or.inl ⟨Or.inl hseen, _, if_pos hseen, rfl, rfl⟩
  · by_cases hbuild : buildOnly env (entryName occ.entry) = true
    · exact Or.inl ⟨Or.inr hbuild, _, (if_neg hseen).trans (if_pos hbuild), rfl, rfl⟩
    · have hseen' : entryName occ.entry ∉ (st.read occ.entry).seen := hseen
      refine Or.inr ?_
      rw [if_neg hseen', if_neg hbuild, emits, if_neg hbuild, nested]
      cases hprov : providers env (entryName occ.entry) with
      | some names =>
        refine Or.inl ⟨hseen, if_neg fun hcond => ?_, _, _, rfl, rfl, rfl, rfl⟩
        cases hcond.2.1
      | none =>
        have hstale := fun hflags => h hflags hseen (Bool.eq_false_iff.mpr hbuild) hprov
        have hat : symbolText (readFlags dollarOne st occ.entry) (entryName occ.entry) =
            symbolText (some (entryFlags occ.entry)) (entryName occ.entry) := by
          rw [symbolText, symbolText, readFlags_own hstale '@' (Or.inr rfl)]
        dsimp only
        rw [readFlags_own hstale '+' (Or.inl rfl), hat]
        by_cases hflag : '+' ∈ entryFlags occ.entry
        · have hany : (some (entryFlags occ.entry)).any (fun flags => decide ('+' ∈ flags)) = true := by simp [hflag]
          refine Or.inr ⟨hseen, ((st.read occ.entry).mark (entryName occ.entry)).push .call, _, if_pos hflag, ?_, rfl, rfl⟩
          have hcond : buildOnly env (entryName occ.entry) = false ∧ (none : Option (List Text)) = none ∧
            '+' ∈ entryFlags occ.entry := ⟨Bool.eq_false_iff.mpr hbuild, rfl, hflag⟩
          rw [if_pos hcond]
          exact if_pos hany
        · have hany : ¬(some (entryFlags occ.entry)).any (fun flags => decide ('+' ∈ flags)) = true := by simp [hflag]
          exact Or.inl ⟨hseen, if_neg fun hcond => hflag hcond.2.2, _,
            ((st.read occ.entry).mark (entryName occ.entry)).add _ .depends, if_neg hflag, if_neg hany, rfl, rfl⟩

theorem leave_seen (onlyDep : Bool) (key : Text) (st : MenuState) : (MenuState.leave onlyDep key st).seen = st.seen := by
  cases onlyDep <;> rfl

theorem leave_dep (onlyDep : Bool) (key : Text) (st : MenuState) :
    (MenuState.leave onlyDep key st).dep = if onlyDep then st.dep else addLine st.dep key .select := by
  cases onlyDep <;> rfl

end Visits

/-! ## Every run ends -/

section Ends
variable (dollarOne : List MatchEvent → Option Text) (env : PackageSet) (pkgname : Text) (depends : List Text)

def entryNames : Finset Text := ((allEntries env depends).map entryName).toFinset

variable {env depends}

theorem entryName_mem {entry : Text} (h : entry ∈ allEntries env depends) : entryName entry ∈ entryNames env depends :=
  List.mem_toFinset.mpr (List.mem_map_of_mem h)

variable {dollarOne pkgname}

theorem selectedEntries_mem (occ : Occurrence) :
    ∀ occ' ∈ selectedEntries env pkgname occ, occ'.entry ∈ allEntries env depends := by
  intro occ' hocc'
  obtain ⟨entry, hentry, rfl⟩ := List.mem_map.mp hocc'
  cases hlookup : env.package.lookup (entryName occ.entry) with
  | none =>
    rw [hlookup] at hentry
    cases hentry
  | some pkg =>
    rw [hlookup] at hentry
    exact List.mem_append_right _ (List.mem_flatMap.mpr ⟨⟨_, pkg⟩, AList.mem_lookup_iff.mp hlookup, hentry⟩)

theorem visitDepend_seen (st : MenuState) (occ : Occurrence) :
    (∃ st', visitDepend dollarOne env pkgname st occ = .done st' ∧ st.seen ⊆ st'.seen) ∨
      (entryName occ.entry ∉ st.seen ∧ ∃ st' key,
        visitDepend dollarOne env pkgname st occ = .enter st' (selectedEntries env pkgname occ) (MenuState.leave occ.onlyDep key) ∧
        st'.seen = entryName occ.entry :: st.seen) := by
  have hsub : st.seen ⊆ entryName occ.entry :: st.seen := List.subset_cons_self _ _
  rw [visitDepend, visitEntry]
  by_cases hseen : entryName occ.entry ∈ st.seen
  · exact Or.inl ⟨_, if_pos hseen, List.Subset.refl _⟩
  · have hseen' : entryName occ.entry ∉ (st.read occ.entry).seen := hseen
    rw [if_neg hseen']
    split
    · exact Or.inl ⟨_, rfl, List.Subset.refl _⟩
    · split
      · exact Or.inl ⟨_, rfl, hsub⟩
      · split
        · exact Or.inr ⟨hseen, _, _, rfl, rfl⟩
        · exact Or.inl ⟨_, rfl, hsub⟩

theorem mconfVisit_returns (st : MenuState) (occ : Occurrence) (hocc : occ.entry ∈ allEntries env depends) :
    ∃ st', mconfVisit dollarOne env pkgname depends st occ = some st' ∧
      (unseen (entryNames env depends) st'.seen).card ≤ (unseen (entryNames env depends) st.seen).card := by
  refine @traverse_returns _ _ (visitDepend dollarOne env pkgname) (fun st => (unseen (entryNames env depends) st.seen).card)
    (fun occ => occ.entry ∈ allEntries env depends) ?_ ?_ ((allEntries env depends).length + 1) st occ hocc ?_
  · intro st occ st' _ hvisit
    rcases visitDepend_seen st occ with ⟨t, hcase, hsub⟩ | ⟨-, t, key, hcase, -⟩
    · cases hcase.symm.trans hvisit
      exact unseen_mono hsub
    · cases hcase.symm.trans hvisit
  · intro st occ st' next after hocc hvisit
    rcases visitDepend_seen st occ with ⟨t, hcase, -⟩ | ⟨hnot, t, key, hcase, hseen⟩
    · cases hcase.symm.trans hvisit
    · cases hcase.symm.trans hvisit
      refine ⟨?_, selectedEntries_mem occ, fun t => ?_⟩
      · rw [hseen]
        exact unseen_cons (entryName_mem hocc) hnot
      · exact unseen_mono (leave_seen occ.onlyDep key t ▸ List.Subset.refl _)
  · have hcard := unseen_le (entryNames env depends) st.seen
    have hlen : (entryNames env depends).card ≤ (allEntries env depends).length :=
      (List.toFinset_card_le _).trans (List.length_map _).le
    omega

variable (dollarOne env pkgname depends)

theorem mconfDepends_returns : ∃ st, mconfDepends dollarOne env pkgname depends = some st := by
  have hown : ∀ occ ∈ ownEntries depends, occ.entry ∈ allEntries env depends := by
    intro occ hocc
    obtain ⟨entry, hentry, rfl⟩ := List.mem_map.mp hocc
    exact List.mem_append_left _ hentry
  obtain ⟨st, hst, -⟩ := @loop_returns _ _ (fun st => (unseen (entryNames env depends) st.seen).card)
    (fun occ => occ.entry ∈ allEntries env depends) (mconfVisit dollarOne env pkgname depends) _
    (fun st occ hocc _ => mconfVisit_returns st occ hocc) _ hown ⟨[], ∅, []⟩ le_rfl
  exact ⟨st, hst⟩

end Ends

/-! ## What a run leaves -/

section Lines
variable {dollarOne : List MatchEvent → Option Text} {env : PackageSet} {pkgname : Text} {depends : List Text}

def Taken (env : PackageSet) (st : MenuState) (occ : Occurrence) : Prop :=
  entryName occ.entry ∈ st.seen ∨ buildOnly env (entryName occ.entry) = true

/-- All that occurrences of a name ask for is there or taken. -/
def Settled (env : PackageSet) (pkgname : Text) (depends : List Text) (st : MenuState) (name : Text) : Prop :=
  ∀ occ, Occurs env pkgname depends occ → entryName occ.entry = name →
    (∀ line ∈ emits env pkgname occ, Provides st.dep line) ∧ ∀ occ' ∈ nested env pkgname occ, Taken env st occ'

def Sound (env : PackageSet) (pkgname : Text) (depends : List Text) (st : MenuState) : Prop :=
  ∀ key mode, st.dep.lookup key = some mode → ∃ occ, Occurs env pkgname depends occ ∧ emits env pkgname occ = some (key, mode)

/-- What a part of a run does: it settles the names that it takes. -/
structure Settles (env : PackageSet) (pkgname : Text) (depends : List Text) (st st' : MenuState) : Prop where
  seen : st.seen ⊆ st'.seen
  provides : ∀ line, Provides st.dep line → Provides st'.dep line
  settled : ∀ name ∈ st'.seen, name ∈ st.seen ∨ Settled env pkgname depends st' name
  sound : Sound env pkgname depends st → Sound env pkgname depends st'

theorem Taken.mono {st st' : MenuState} {occ : Occurrence} (hseen : st.seen ⊆ st'.seen) (h : Taken env st occ) :
    Taken env st' occ := h.imp_left fun hmem => hseen hmem

theorem Settled.mono {st st' : MenuState} {name : Text} (hseen : st.seen ⊆ st'.seen)
    (hprov : ∀ line, Provides st.dep line → Provides st'.dep line) (h : Settled env pkgname depends st name) :
    Settled env pkgname depends st' name := by
  intro occ hocc hname
  obtain ⟨hline, hnested⟩ := h occ hocc hname
  exact ⟨fun line hmem => hprov line (hline line hmem), fun occ' hocc' => (hnested occ' hocc').mono hseen⟩

theorem Settles.refl (st : MenuState) : Settles env pkgname depends st st :=
  ⟨List.Subset.refl _, fun _ h => h, fun _ h => Or.inl h, fun h => h⟩

theorem Settles.trans {st st' st'' : MenuState} (h : Settles env pkgname depends st st')
    (h' : Settles env pkgname depends st' st'') : Settles env pkgname depends st st'' where
  seen := List.Subset.trans h.seen h'.seen
  provides := fun line hline => h'.provides line (h.provides line hline)
  settled := fun name hname => by
    rcases h'.settled name hname with hbefore | hsettled
    · exact (h.settled name hbefore).imp_right fun hsettled => hsettled.mono h'.seen h'.provides
    · exact Or.inr hsettled
  sound := fun hsound => h'.sound (h.sound hsound)

theorem Sound.addLine {st st' : MenuState} (h : Sound env pkgname depends st) {occ : Occurrence}
    (hocc : Occurs env pkgname depends occ) {key : Text} {mode : Mode} (hline : emits env pkgname occ = some (key, mode))
    (hdep : st'.dep = addLine st.dep key mode) : Sound env pkgname depends st' := by
  intro key' mode' hlookup
  rw [hdep, lookup_addLine] at hlookup
  split at hlookup
  · next hnew =>
    cases hlookup
    rw [hnew.1]
    exact ⟨occ, hocc, hline⟩
  · exact h key' mode' hlookup

section Step
variable (hagree : Agree env pkgname depends) {st st' : MenuState} {occ : Occurrence}
  (hocc : Occurs env pkgname depends occ)
include hagree hocc

/-- A name is settled when the line and the entries of one of its occurrences are. -/
theorem settled_of_one (hline : ∀ line ∈ emits env pkgname occ, Provides st'.dep line)
    (hnested : ∀ occ' ∈ nested env pkgname occ, Taken env st' occ') :
    Settled env pkgname depends st' (entryName occ.entry) := by
  intro occ' hocc' hname
  obtain ⟨hemits, hsame⟩ := hagree occ' occ hocc' hocc hname
  rw [hemits, hsame]
  exact ⟨hline, hnested⟩

theorem settles_done (hown : ReadsOwn dollarOne env st occ) (hvisit : visitDepend dollarOne env pkgname st occ = .done st') :
    Settles env pkgname depends st st' ∧ Taken env st' occ := by
  rcases visitDepend_cases hown with ⟨htaken, t, hcase, hseen, hdep⟩ | ⟨-, hnested, line, t, hemits, hcase, hseen, hdep⟩ |
    ⟨-, t, key, -, hcase, -, -⟩
  · cases hcase.symm.trans hvisit
    refine ⟨⟨hseen ▸ List.Subset.refl _, fun line h => hdep ▸ h, fun name hname => Or.inl (hseen ▸ hname), ?_⟩, ?_⟩
    · intro hsound
      rw [Sound, hdep]
      exact hsound
    · rw [Taken, hseen]
      exact htaken
  · cases hcase.symm.trans hvisit
    have hsettled : Settled env pkgname depends st' (entryName occ.entry) := by
      refine settled_of_one hagree hocc (fun line' hline' => ?_) (fun occ' hocc' => ?_)
      · rw [hemits] at hline'
        cases hline'
        rw [hdep]
        exact provides_addLine _ _ _
      · rw [hnested] at hocc'
        cases hocc'
    refine ⟨⟨hseen ▸ List.subset_cons_self _ _, fun line' h => hdep ▸ h.addLine _ _, fun name hname => ?_, ?_⟩, ?_⟩
    · rw [hseen] at hname
      rcases List.mem_cons.mp hname with rfl | hname
      · exact Or.inr hsettled
      · exact Or.inl hname
    · exact fun hsound => hsound.addLine hocc hemits hdep
    · exact Or.inl (hseen ▸ List.mem_cons_self)
  · cases hcase.symm.trans hvisit

theorem settles_enter (hown : ReadsOwn dollarOne env st occ) {next : List Occurrence} {after : MenuState → MenuState}
    (hvisit : visitDepend dollarOne env pkgname st occ = .enter st' next after) :
    (∀ occ' ∈ next, Occurs env pkgname depends occ') ∧
      ∀ t, Settles env pkgname depends st' t → (∀ occ' ∈ next, Taken env t occ') →
        Settles env pkgname depends st (after t) ∧ Taken env (after t) occ := by
  rcases visitDepend_cases hown with ⟨-, t, hcase, -, -⟩ | ⟨-, -, line, t, -, hcase, -, -⟩ |
    ⟨-, t, key, hemits, hcase, hseen, hdep⟩
  · cases hcase.symm.trans hvisit
  · cases hcase.symm.trans hvisit
  · cases hcase.symm.trans hvisit
    refine ⟨fun occ' hocc' => .selected hocc hocc', fun t ht htaken => ?_⟩
    have hprov : ∀ line, Provides t.dep line → Provides (MenuState.leave occ.onlyDep key t).dep line := by
      intro line hline
      rw [leave_dep]
      split
      · exact hline
      · exact hline.addLine key .select
    have hsub : st'.seen ⊆ (MenuState.leave occ.onlyDep key t).seen := by
      rw [leave_seen]
      exact ht.seen
    have hself : Taken env (MenuState.leave occ.onlyDep key t) occ := Or.inl (hsub (hseen ▸ List.mem_cons_self))
    have hsettled : Settled env pkgname depends (MenuState.leave occ.onlyDep key t) (entryName occ.entry) := by
      refine settled_of_one hagree hocc (fun line hline => ?_) (fun occ' hocc' => ?_)
      · rw [hemits] at hline
        rw [leave_dep]
        split at hline
        · cases hline
        · next honly =>
          cases hline
          rw [if_neg honly]
          exact provides_addLine _ _ _
      · rw [Taken, leave_seen]
        exact htaken occ' hocc'
    refine ⟨⟨fun name hname => hsub (hseen ▸ List.mem_cons_of_mem _ hname), ?_, ?_, ?_⟩, hself⟩
    · exact fun line hline => hprov line (ht.provides line (hdep ▸ hline))
    · intro name hname
      rw [leave_seen] at hname
      rcases ht.settled name hname with hbefore | hdone
      · rw [hseen] at hbefore
        rcases List.mem_cons.mp hbefore with rfl | hbefore
        · exact Or.inr hsettled
        · exact Or.inl hbefore
      · exact Or.inr (hdone.mono (by rw [leave_seen]; exact List.Subset.refl _) hprov)
    · intro hsound
      have hbefore : Sound env pkgname depends t := by
        refine ht.sound ?_
        rw [Sound, hdep]
        exact hsound
      by_cases honly : occ.onlyDep = true
      · rw [Sound, leave_dep, if_pos honly]
        exact hbefore
      · rw [if_neg honly] at hemits
        exact hbefore.addLine hocc hemits (by rw [leave_dep, if_neg honly])

end Step

theorem mconfDepends_settles (hagree : Agree env pkgname depends) (hown : RunReadsOwn dollarOne env pkgname depends)
    {st : MenuState} (hrun : mconfDepends dollarOne env pkgname depends = some st) :
    Settles env pkgname depends ⟨[], ∅, []⟩ st ∧ ∀ occ ∈ ownEntries depends, Taken env st occ := by
  have hrefl : ∀ st, Settles env pkgname depends st st := Settles.refl
  have htrans : ∀ st st' st'', Settles env pkgname depends st st' → Settles env pkgname depends st' st'' →
      Settles env pkgname depends st st'' := fun _ _ _ => Settles.trans
  have hmono : ∀ st st' occ, Settles env pkgname depends st st' → Taken env st occ → Taken env st' occ :=
    fun _ _ _ h htaken => htaken.mono h.seen
  refine loop_rule (I := Occurs env pkgname depends) hrefl htrans hmono (fun st occ st' hocc hmeets h => ?_) (fun occ hocc => Occurs.own hocc) hown hrun
  exact traverse_rule hrefl htrans hmono (fun _ _ _ hocc hown hvisit => settles_done hagree hocc hown hvisit)
    (fun _ _ _ _ _ hocc hown hvisit => settles_enter hagree hocc hown hvisit) _ st occ st' hocc hmeets h

/-- The lines of such a run are those that the entries ask for. -/
theorem mconfDepends_lines (hagree : Agree env pkgname depends) (hown : RunReadsOwn dollarOne env pkgname depends)
    {st : MenuState} (hrun : mconfDepends dollarOne env pkgname depends = some st) (key : Text) (mode : Mode) :
    st.dep.lookup key = some mode ↔ Line env pkgname depends key mode := by
  obtain ⟨hsettles, htop⟩ := mconfDepends_settles hagree hown hrun
  have hsound : Sound env pkgname depends st := by
    refine hsettles.sound fun key mode hlookup => ?_
    rw [AList.lookup_empty] at hlookup
    cases hlookup
  have hsettled : ∀ name ∈ st.seen, Settled env pkgname depends st name := fun name hname =>
    (hsettles.settled name hname).resolve_left List.not_mem_nil
  have htaken : ∀ occ, Occurs env pkgname depends occ → Taken env st occ := by
    intro occ hocc
    induction hocc with
    | own h => exact htop _ h
    | @selected occ occ' hocc hocc' ih =>
      rcases ih with hname | hbuild
      · exact (hsettled _ hname occ hocc rfl).2 occ' hocc'
      · rw [nested, if_neg fun hcond => absurd (hbuild.symm.trans hcond.1) (by decide)] at hocc'
        cases hocc'
  have hprovides : ∀ occ line, Occurs env pkgname depends occ → emits env pkgname occ = some line → Provides st.dep line := by
    intro occ line hocc hemits
    rcases htaken occ hocc with hname | hbuild
    · exact (hsettled _ hname occ hocc rfl).1 line hemits
    · rw [emits, if_pos hbuild] at hemits
      cases hemits
  constructor
  · intro hlookup
    refine ⟨hsound key mode hlookup, fun hmode => ?_⟩
    rintro ⟨occ, hocc, hemits⟩
    have hselect : st.dep.lookup key = some .select := (hprovides occ (key, .select) hocc hemits).elim id id
    rw [hlookup, hmode] at hselect
    cases hselect
  · rintro ⟨⟨occ, hocc, hemits⟩, honly⟩
    rcases hprovides occ (key, mode) hocc hemits with hselect | hlookup
    · cases mode with
      | select => exact hselect
      | depends => exact absurd (hsound key .select hselect) (honly rfl)
    · exact hlookup

end Lines

/-! ## Permutations -/

theorem Occurs.of_perm {env : PackageSet} {pkgname : Text} {depends depends' : List Text} (hperm : depends.Perm depends')
    {occ : Occurrence} (h : Occurs env pkgname depends occ) : Occurs env pkgname depends' occ := by
  induction h with
  | own h => exact .own ((hperm.map _).mem_iff.mp h)
  | selected _ h' ih => exact .selected ih h'

section Decidable
variable (dollarOne : List MatchEvent → Option Text) (env : PackageSet) (pkgname : Text) (depends : List Text)

instance ReadsOwn.decidable (st : MenuState) (occ : Occurrence) : Decidable (ReadsOwn dollarOne env st occ) :=
  inferInstanceAs (Decidable (_ → _ → _ → _ → ∀ stale ∈ dollarOne (.noFlags :: st.trace), _))

instance RunReadsOwn.decidable : Decidable (RunReadsOwn dollarOne env pkgname depends) :=
  inferInstanceAs (Decidable (Along _
    (fun (r : Option MenuState) occ => ∀ st ∈ r, Meets (visitDepend dollarOne env pkgname) (ReadsOwn dollarOne env) _ st occ) _ _))

/-- Agreement in a list that is closed under selection. -/
theorem agree_of_list (l : List Occurrence) (hown : ∀ occ ∈ ownEntries depends, occ ∈ l)
    (hclosed : ∀ occ ∈ l, ∀ occ' ∈ nested env pkgname occ, occ' ∈ l)
    (hsame : ∀ occ ∈ l, ∀ occ' ∈ l, entryName occ.entry = entryName occ'.entry →
      emits env pkgname occ = emits env pkgname occ' ∧ nested env pkgname occ = nested env pkgname occ') :
    Agree env pkgname depends := by
  have hmem : ∀ occ, Occurs env pkgname depends occ → occ ∈ l := by
    intro occ hocc
    induction hocc with
    | own h => exact hown _ h
    | selected _ h' ih => exact hclosed _ ih _ h'
  exact fun occ occ' hocc hocc' => hsame occ (hmem occ hocc) occ' (hmem occ' hocc')

end Decidable

/-- A package that is selected, with one dependency, and a virtual one. -/
def selectSet : PackageSet where
  package := packageTable [menuPkg "a" ["c"], menuPkg "c" [], ⟨"v".toList, none, false, none, some ["c".toList]⟩]
  category := ∅
  listed := by decide

end Neufbox.Packages.Menus
