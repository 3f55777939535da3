import Neufbox.Packages.BuildOrder

/-! # When the build order is complete

A dependency is in the makefile when the source has a line, and one of the entries of the source decides about its
path and remains: the first one that names a package with this path, whatever its condition, or one before it for
a package that provides another. -/
namespace Neufbox.Packages
open RunAlong
set_option autoImplicit false
set_option maxHeartbeats 250000
set_option maxRecDepth 120000

/-! ## Conditions -/

/-- A condition, in the language of `zconf.y` without its comparisons. -/
inductive Expr
  | symbol (name : Text)
  | not (e : Expr)
  | and (l r : Expr)
  | or (l r : Expr)

/-- Its value when the options are set that `conf` says. -/
def Expr.eval (conf : Text → Bool) : Expr → Bool
  | .symbol name => conf name
  | .not e => !e.eval conf
  | .and l r => l.eval conf && r.eval conf
  | .or l r => l.eval conf || r.eval conf

/-- The letters of a `T_WORD`. -/
def isWord (c : Char) : Prop := c.isAlphanum ∨ c ∈ ['_', '-', '/', '.']

instance isWord.decidable (c : Char) : Decidable (isWord c) :=
  inferInstanceAs (Decidable (c.isAlphanum ∨ c ∈ ['_', '-', '/', '.']))

/-- How an expression is written; `||` binds at level 0, `&&` at level 1 and `!` at level 2. -/
inductive Expr.Written : ℕ → Expr → Text → Prop
  | symbol {name : Text} : name ≠ [] → (∀ c ∈ name, isWord c) → Written 2 (.symbol name) name
  | not {e : Expr} {s : Text} : Written 2 e s → Written 2 (.not e) ('!' :: s)
  | parens {e : Expr} {s : Text} : Written 0 e s → Written 2 e ('(' :: s ++ [')'])
  | and {l r : Expr} {s s' : Text} : Written 1 l s → Written 2 r s' → Written 1 (.and l r) (s ++ "&&".toList ++ s')
  | or {l r : Expr} {s s' : Text} : Written 0 l s → Written 1 r s' → Written 0 (.or l r) (s ++ "||".toList ++ s')
  | tighter {n : ℕ} {e : Expr} {s : Text} : Written (n + 1) e s → Written n e s

/-- A condition is true when it is written for an expression that is. -/
def ConditionTrue (conf : Text → Bool) : Option Text → Prop
  | none => True
  | some condition => ∃ e, Expr.Written 0 e condition ∧ e.eval conf

theorem Expr.Written.of_word {n : ℕ} {e : Expr} {s : Text} (h : Written n e s) (hword : ∀ c ∈ s, isWord c) :
    e = .symbol s := by
  induction h with
  | symbol => rfl
  | not _ _ => exact absurd (hword '!' List.mem_cons_self) (by decide)
  | parens _ _ => exact absurd (hword '(' List.mem_cons_self) (by decide)
  | and _ _ _ _ => exact absurd (hword '&' (by simp)) (by decide)
  | or _ _ _ _ => exact absurd (hword '|' (by simp)) (by decide)
  | tighter _ ih => exact ih hword

theorem Expr.Written.of_not_word {n : ℕ} {e : Expr} {s s' : Text} (h : Written n e s) (hs : s = '!' :: s')
    (hword : ∀ c ∈ s', isWord c) : e = .not (.symbol s') := by
  induction h with
  | symbol _ hall =>
    subst hs
    exact absurd (hall '!' List.mem_cons_self) (by decide)
  | not h _ =>
    obtain rfl := List.tail_eq_of_cons_eq hs
    rw [h.of_word hword]
  | parens _ _ => exact absurd (List.head_eq_of_cons_eq hs) (by decide)
  | @and l r s t _ _ _ _ =>
    have hmem : '&' ∈ '!' :: s' := by
      rw [← hs]
      simp
    exact absurd (hword '&' ((List.mem_cons.mp hmem).resolve_left (by decide))) (by decide)
  | @or l r s t _ _ _ _ =>
    have hmem : '|' ∈ '!' :: s' := by
      rw [← hs]
      simp
    exact absurd (hword '|' ((List.mem_cons.mp hmem).resolve_left (by decide))) (by decide)
  | tighter _ ih => exact ih hs

/-- The line remains exactly under the condition when that is an option, or one that is not set. -/
theorem getConditionalDep_iff_of_word (conf : Text → Bool) {s : Text} (hs : s ≠ []) (hzero : s ≠ ['0'])
    (hword : ∀ c ∈ s, isWord c) :
    (getConditionalDep conf (some s) ↔ ConditionTrue conf (some s)) ∧
      (getConditionalDep conf (some ('!' :: s)) ↔ ConditionTrue conf (some ('!' :: s))) := by
  have hsymbol : Expr.Written 2 (.symbol s) s := .symbol hs hword
  obtain ⟨c, cs, rfl⟩ := List.exists_cons_of_ne_nil hs
  have hbang : c ≠ '!' := fun h => absurd (hword c List.mem_cons_self) (by rw [h]; decide)
  constructor
  · have hdep : getConditionalDep conf (some (c :: cs)) = conf (c :: cs) := by
      unfold getConditionalDep
      split <;> simp_all
    rw [hdep]
    constructor
    · exact fun h => ⟨.symbol _, .tighter (.tighter hsymbol), h⟩
    · rintro ⟨e, hwritten, heval⟩
      rw [hwritten.of_word hword] at heval
      exact heval
  · constructor
    · exact fun h => ⟨.not (.symbol _), .tighter (.tighter (.not hsymbol)), h⟩
    · rintro ⟨e, hwritten, heval⟩
      rw [hwritten.of_not_word rfl hword] at heval
      exact heval

/-- One of two options is set: the condition is true, and the line does not remain. -/
example :
    ConditionTrue (fun name => name = ['A']) (some "A||B".toList) ∧
      ¬getConditionalDep (fun name => name = ['A']) (some "A||B".toList) := by
  refine ⟨⟨.or (.symbol ['A']) (.symbol ['B']), ?_, rfl⟩, by decide⟩
  have hleft : Expr.Written 2 (.symbol ['A']) ['A'] :=
    .symbol (List.cons_ne_nil _ _) (List.forall_mem_singleton.mpr (Or.inl rfl))
  have hright : Expr.Written 2 (.symbol ['B']) ['B'] :=
    .symbol (List.cons_ne_nil _ _) (List.forall_mem_singleton.mpr (Or.inl rfl))
  exact .or (.tighter (.tighter hleft)) (.tighter hright)

/-! ## What is required -/

/-- Where a dependency of a source leads to: to the directory of the package, or to those of the selected packages
that provide it, and to the build type in it that the suffix names. The source itself, `kernel` and `base-files` are
not waited for. -/
inductive Required (t : Tables) (conf : Text → Bool) (source : Source) (d : Dependency) : Text → Prop
  | package {entry : Entry} : t.package.lookup d.name = some entry → entry.vdepends = none →
      (entry.subdir, entry.src) ≠ (source.subdir, source.src) → d.name ≠ "kernel".toList →
      d.name ≠ "base-files".toList → Required t conf source d (entry.subdir ++ entry.src ++ d.suffix)
  | provider {entry provider : Entry} {providers : List Text} {name : Text} : t.package.lookup d.name = some entry →
      entry.vdepends = some providers → name ∈ providers → conf ("PACKAGE_".toList ++ name) →
      t.package.lookup name = some provider → (provider.subdir, provider.src) ≠ (source.subdir, source.src) →
      name ≠ "kernel".toList → name ≠ "base-files".toList →
      Required t conf source d (provider.subdir ++ provider.src ++ d.suffix)

/-- Everything that a source requires, its makefile waits for. -/
def BuildComplete (m : Metadata) (conf : Text → Bool) : Prop :=
  ∀ source ∈ m, ∀ stanza ∈ source.packages, ∀ dep ∈ stanza.depends ++ stanza.buildDepends, '@' ∉ dep →
    ConditionTrue conf (parseDependency (stripPlus dep)).condition →
    ∀ path, Required (parsePackageMetadata m) conf source (parseDependency (stripPlus dep)) path →
      Waits m conf source path

/-! ## What is waited for -/

section Entries

variable (t : Tables) (src : Text)

/-- What an entry of a source leads to: the path of the package that is named, for this package, or for each one that
provides it. A name that no package has may be that of a source; otherwise only the suffix remains. -/
inductive LeadsTo (d : Dependency) : Bool → Text → Text → Prop
  | package {entry : Entry} : t.package.lookup d.name = some entry → entry.vdepends = none →
      src ≠ entry.src ++ d.suffix → LeadsTo d false d.name (entry.subdir ++ entry.src ++ d.suffix)
  | provider {entry : Entry} {providers : List Text} {name : Text} : t.package.lookup d.name = some entry →
      entry.vdepends = some providers → name ∈ providers → src ≠ entry.src ++ d.suffix →
      LeadsTo d true name (entry.subdir ++ entry.src ++ d.suffix)
  | source {stanzas : List Stanza} : t.package.lookup d.name = none → t.srcpackage.lookup d.name = some stanzas →
      src ≠ d.suffix → LeadsTo d false d.name ((t.subdir.lookup d.name).getD [] ++ d.name ++ d.suffix)
  | unknown : t.package.lookup d.name = none → t.srcpackage.lookup d.name = none → src ≠ d.suffix →
      LeadsTo d false d.name d.suffix

/-- Paths that start with `kernel` or end with `base-files` are left out, and what is false for Perl. -/
structure Leads (d : Dependency) (provided : Bool) (name path : Text) : Prop where
  leadsTo : LeadsTo t src d provided name path
  notBase : ¬isBase path
  truthy : Truthy path

/-- An entry leads to a path, and none of those before names a package with it; for a package that provides another,
none leads to the same. -/
structure FirstLead (before : List Dependency) (d : Dependency) (provided : Bool) (name path : Text) : Prop where
  leads : Leads t src d provided name path
  direct : ∀ e ∈ before, ∀ other, ¬Leads t src e false other path
  provided : provided → ∀ e ∈ before, ¬Leads t src e true name path

/-- The first entry with the path, when no later one of that kind has the same path and name put together. -/
def Decisive (entries : List Dependency) (d : Dependency) (provided : Bool) (name path : Text) : Prop :=
  ∃ before after, entries = before ++ d :: after ∧ FirstLead t src before d provided name path ∧
    ∀ between e later, after = between ++ e :: later → ∀ provided' name' path',
      FirstLead t src (before ++ d :: between) e provided' name' path' → path' ++ name' ≠ path ++ name

/-- A path has a decisive entry whose line remains; for a package that provides another, it is selected. -/
def EdgeRemains (conf : Text → Bool) (path : Text) : Prop :=
  ∃ d provided name, Decisive t src (srcdeps t src) d provided name path ∧ getConditionalDep conf d.condition ∧
    (provided → conf ("PACKAGE_".toList ++ name))

end Entries

/-! ## What is kept -/

/-- No entry before has the path of the candidate and names its package; and for a provided package, none is the
same. -/
def First (pre : List Candidate) (c : Candidate) : Prop :=
  (∀ c' ∈ pre, ¬c'.provided → c'.idx ≠ c.idx) ∧
    (c.provided → ∀ c' ∈ pre, c'.provided → (c'.dep, c'.idx) ≠ (c.dep, c.idx))

/-- No entry that is added later has the key. -/
def NoLater : List Candidate → List Candidate → Text → Prop
  | _, [], _ => True
  | pre, c :: cs, key => (First pre c → c.key ≠ key) ∧ NoLater (pre ++ [c]) cs key

/-- A candidate is added and not replaced. -/
def Kept : List Candidate → List Candidate → Candidate → Prop
  | _, [], _ => False
  | pre, x :: cs, c => (x = c ∧ First pre x ∧ NoLater (pre ++ [x]) cs x.key) ∨ Kept (pre ++ [x]) cs c

/-- What the state knows of the candidates so far. -/
structure Seen (pre : List Candidate) (st : DepState) : Prop where
  direct : ∀ idx, idx ∈ st.direct ↔ ∃ c ∈ pre, ¬c.provided ∧ c.idx = idx
  recorded : ∀ r ∈ st.provided, ∃ c ∈ pre, c.provided ∧ (c.dep, c.idx) = r
  provided : ∀ c ∈ pre, c.provided → (c.dep, c.idx) ∈ st.provided ∨ c.idx ∈ st.direct

theorem Seen.skip_iff {pre : List Candidate} {st : DepState} (h : Seen pre st) (c : Candidate) :
    (c.idx ∈ st.direct ∨ c.provided ∧ (c.dep, c.idx) ∈ st.provided) ↔ ¬First pre c := by
  constructor
  · rintro (hdirect | ⟨hprovided, hmem⟩) hfirst
    · obtain ⟨c', hc', hnot, hidx⟩ := (h.direct c.idx).mp hdirect
      exact hfirst.1 c' hc' hnot hidx
    · obtain ⟨c', hc', hprov, heq⟩ := h.recorded _ hmem
      exact hfirst.2 hprovided c' hc' hprov heq
  · intro hnot
    by_contra hneither
    rw [not_or] at hneither
    apply hnot
    constructor
    · intro c' hc' hprov hidx
      exact hneither.1 ((h.direct c.idx).mpr ⟨c', hc', hprov, hidx⟩)
    · intro hprovided c' hc' hprov heq
      rcases h.provided c' hc' hprov with hmem | hdirect
      · rw [heq] at hmem
        exact hneither.2 ⟨hprovided, hmem⟩
      · have hidx : c'.idx = c.idx := (Prod.mk.inj heq).2
        rw [hidx] at hdirect
        exact hneither.1 hdirect

/-- A candidate that is not the first is skipped, and the others are added. -/
theorem depStep_eq {pre : List Candidate} {st : DepState} (h : Seen pre st) (c : Candidate) :
    ¬First pre c ∧ depStep st c = st ∨
      First pre c ∧ (depStep st c).direct = (if c.provided then st.direct else c.idx :: st.direct) ∧
        (depStep st c).provided = (if c.provided then (c.dep, c.idx) :: st.provided else st.provided) ∧
        (depStep st c).deplines = st.deplines.insert c.key c := by
  rw [depStep]
  by_cases hskip : c.idx ∈ st.direct ∨ c.provided ∧ (c.dep, c.idx) ∈ st.provided
  · refine Or.inl ⟨(h.skip_iff c).mp hskip, ?_⟩
    by_cases hdirect : c.idx ∈ st.direct
    · rw [if_pos hdirect]
    · rw [if_neg hdirect, if_pos (hskip.resolve_left hdirect)]
  · refine Or.inr ⟨not_not.mp fun hnot => hskip ((h.skip_iff c).mpr hnot), ?_⟩
    rw [not_or] at hskip
    rw [if_neg hskip.1, if_neg hskip.2]
    exact ⟨rfl, rfl, rfl⟩

theorem Seen.step {pre : List Candidate} {st : DepState} (h : Seen pre st) (c : Candidate) :
    Seen (pre ++ [c]) (depStep st c) := by
  have hsplit : ∀ P : Candidate → Prop, (∃ c' ∈ pre ++ [c], P c') ↔ (∃ c' ∈ pre, P c') ∨ P c := by
    intro P
    simp only [List.mem_append, List.mem_singleton, or_and_right, exists_or, exists_eq_left]
  rcases depStep_eq h c with ⟨hnot, hsame⟩ | ⟨-, hdirect, hprovided, -⟩
  · rw [hsame]
    have hskip := (h.skip_iff c).mpr hnot
    refine ⟨fun idx => ?_, fun r hr => ?_, fun c' hc' hprov => ?_⟩
    · rw [h.direct, hsplit]
      refine ⟨Or.inl, fun hor => hor.elim id ?_⟩
      rintro ⟨hnotProv, rfl⟩
      exact (h.direct _).mp (hskip.resolve_right fun hp => hnotProv hp.1)
    · exact (hsplit _).mpr (Or.inl (h.recorded r hr))
    · rcases List.mem_append.mp hc' with hmem | hmem
      · exact h.provided c' hmem hprov
      · obtain rfl := List.mem_singleton.mp hmem
        exact hskip.elim Or.inr fun hp => Or.inl hp.2
  · by_cases hprov : c.provided
    · rw [if_pos hprov] at hdirect hprovided
      refine ⟨fun idx => ?_, fun r hr => ?_, fun c' hc' hprov' => ?_⟩
      · rw [hdirect, h.direct, hsplit]
        exact ⟨Or.inl, fun hor => hor.elim id fun hc => absurd hprov hc.1⟩
      · rw [hprovided] at hr
        rw [hsplit]
        rcases List.mem_cons.mp hr with rfl | hmem
        · exact Or.inr ⟨hprov, rfl⟩
        · exact Or.inl (h.recorded r hmem)
      · rw [hprovided, hdirect]
        rcases List.mem_append.mp hc' with hmem | hmem
        · exact (h.provided c' hmem hprov').imp_left (List.mem_cons_of_mem _)
        · obtain rfl := List.mem_singleton.mp hmem
          exact Or.inl List.mem_cons_self
    · rw [if_neg hprov] at hdirect hprovided
      refine ⟨fun idx => ?_, fun r hr => ?_, fun c' hc' hprov' => ?_⟩
      · rw [hdirect, List.mem_cons, h.direct, hsplit, or_comm]
        apply or_congr_right
        exact ⟨fun heq => ⟨hprov, heq.symm⟩, fun hc => hc.2.symm⟩
      · rw [hprovided] at hr
        exact (hsplit _).mpr (Or.inl (h.recorded r hr))
      · rw [hprovided, hdirect]
        rcases List.mem_append.mp hc' with hmem | hmem
        · exact (h.provided c' hmem hprov').imp_right (List.mem_cons_of_mem _)
        · obtain rfl := List.mem_singleton.mp hmem
          exact absurd hprov' hprov

/-- What is found under a key: an old entry, or one that is kept. -/
theorem deplines_lookup {pre cs : List Candidate} {st : DepState} (h : Seen pre st) (key : Text) (c : Candidate) :
    (runSteps depStep st cs).deplines.lookup key = some c ↔
      st.deplines.lookup key = some c ∧ NoLater pre cs key ∨ c.key = key ∧ Kept pre cs c := by
  induction cs generalizing pre st with
  | nil => simp [NoLater, Kept]
  | cons x cs ih =>
    rw [runSteps_cons, ih (h.step x), NoLater, Kept]
    rcases depStep_eq h x with ⟨hnot, hsame⟩ | ⟨hfirst, -, -, hlines⟩
    · rw [hsame]
      simp only [hnot, false_implies, true_and, false_and, and_false, false_or]
    · rw [hlines]
      simp only [hfirst, true_implies, true_and]
      by_cases hkey : key = x.key
      · subst hkey
        rw [AList.lookup_insert]
        simp only [ne_eq, not_true_eq_false, false_and, and_false, false_or, Option.some.injEq]
        constructor
        · rintro (⟨rfl, hlater⟩ | ⟨hc, hkept⟩)
          · exact ⟨rfl, Or.inl ⟨rfl, hlater⟩⟩
          · exact ⟨hc, Or.inr hkept⟩
        · rintro ⟨hc, ⟨rfl, hlater⟩ | hkept⟩
          · exact Or.inl ⟨rfl, hlater⟩
          · exact Or.inr ⟨hc, hkept⟩
      · rw [AList.lookup_insert_ne hkey]
        simp only [ne_eq, Ne.symm hkey, not_false_eq_true, true_and]
        apply or_congr_right
        apply and_congr_right
        intro hc
        constructor
        · exact Or.inr
        · rintro (⟨rfl, -⟩ | hkept)
          · exact absurd hc.symm hkey
          · exact hkept

theorem mem_deplines_iff (cs : List Candidate) (c : Candidate) :
    c ∈ (depState cs).deplines.entries.map Sigma.snd ↔ Kept [] cs c := by
  have hseen : Seen [] ⟨[], [], ∅⟩ := by
    refine ⟨fun idx => ?_, fun r hr => ?_, fun c hc => ?_⟩
    · simp
    · cases hr
    · cases hc
  have hmem : c ∈ (depState cs).deplines.entries.map Sigma.snd ↔
      ∃ key, (depState cs).deplines.lookup key = some c := by
    rw [List.mem_map]
    constructor
    · rintro ⟨⟨key, c'⟩, hentry, rfl⟩
      exact ⟨key, AList.mem_lookup_iff.mpr hentry⟩
    · rintro ⟨key, hkey⟩
      exact ⟨⟨key, c⟩, AList.mem_lookup_iff.mp hkey, rfl⟩
  rw [hmem]
  simp only [depState, deplines_lookup hseen, AList.lookup_empty, reduceCtorEq, false_and, false_or, exists_eq_left']

/-! ## Entries -/

section Entries

variable {t : Tables} {src : Text}

theorem LeadsTo.resolve_eq {d : Dependency} {provided : Bool} {name path : Text}
    (h : LeadsTo t src d provided name path) :
    (resolve t src d).1 = path ∧ (resolve t src d).2.1 = provided ∧ name ∈ (resolve t src d).2.2 := by
  cases h with
  | package hlookup hown hsrc => simp [resolve, hlookup, hown, hsrc]
  | provider hlookup hproviders hname hsrc => simp [resolve, hlookup, hproviders, hname, hsrc]
  | source hlookup hstanzas hsrc => simp [resolve, hlookup, hstanzas, hsrc]
  | unknown hlookup hnone hsrc => simp [resolve, hlookup, hnone, hsrc]

theorem leadsTo_resolve {d : Dependency} {name : Text} (hpath : Truthy (resolve t src d).1)
    (hname : name ∈ (resolve t src d).2.2) :
    LeadsTo t src d (resolve t src d).2.1 name (resolve t src d).1 := by
  cases hlookup : t.package.lookup d.name with
  | some entry =>
    simp only [resolve, hlookup] at hpath hname ⊢
    have hsrc : src ≠ entry.src ++ d.suffix := fun heq => hpath.1 (if_pos heq)
    rw [if_neg hsrc]
    cases hproviders : entry.vdepends with
    | none =>
      rw [hproviders, Option.getD_none, List.mem_singleton] at hname
      rw [hname]
      exact .package hlookup hproviders hsrc
    | some providers =>
      rw [hproviders] at hname
      exact .provider hlookup hproviders hname hsrc
  | none =>
    simp only [resolve, hlookup, List.mem_singleton] at hpath hname ⊢
    have hsrc : src ≠ d.suffix := fun heq => hpath.1 (if_pos heq)
    rw [if_neg hsrc, hname]
    cases hstanzas : t.srcpackage.lookup d.name with
    | none => exact .unknown hlookup hstanzas hsrc
    | some stanzas => exact .source hlookup hstanzas hsrc

theorem LeadsTo.dep_eq {d : Dependency} {provided : Bool} {name path : Text} (h : LeadsTo t src d provided name path)
    (hnot : ¬provided) : name = d.name := by
  cases h with
  | package _ _ _ => rfl
  | provider _ _ _ _ => exact absurd rfl hnot
  | source _ _ _ => rfl
  | unknown _ _ _ => rfl

theorem mem_candidates_iff (d : Dependency) (c : Candidate) :
    c ∈ candidates t src d ↔ c.condition = d.condition ∧ Leads t src d c.provided c.dep c.idx := by
  simp only [candidates]
  constructor
  · intro hc
    split at hc
    · cases hc
    · rename_i hkeep
      rw [not_or, not_not] at hkeep
      obtain ⟨name, hname, rfl⟩ := List.mem_map.mp hc
      exact ⟨rfl, leadsTo_resolve hkeep.2 hname, hkeep.1, hkeep.2⟩
  · rintro ⟨hcondition, hleads, hbase, htruthy⟩
    obtain ⟨hpath, hprovided, hname⟩ := hleads.resolve_eq
    rw [hpath, hprovided, if_neg (by simp [hbase, htruthy]), ← hcondition]
    exact List.mem_map.mpr ⟨c.dep, hname, rfl⟩

/-- The candidates of one entry differ in the package only, and there is one of a package that is named. -/
theorem candidates_alike {d : Dependency} {c c' : Candidate} (hc : c ∈ candidates t src d)
    (hc' : c' ∈ candidates t src d) :
    c'.provided = c.provided ∧ c'.idx = c.idx ∧ ((c.provided → c'.dep = c.dep) → c' = c) := by
  obtain ⟨hcond, hleads⟩ := (mem_candidates_iff d c).mp hc
  obtain ⟨hcond', hleads'⟩ := (mem_candidates_iff d c').mp hc'
  obtain ⟨hpath, hprov, -⟩ := hleads.leadsTo.resolve_eq
  obtain ⟨hpath', hprov', -⟩ := hleads'.leadsTo.resolve_eq
  have hidx : c'.idx = c.idx := hpath'.symm.trans hpath
  have hprovided : c'.provided = c.provided := hprov'.symm.trans hprov
  refine ⟨hprovided, hidx, fun hdep => ?_⟩
  have hname : c'.dep = c.dep := by
    by_cases hp : c.provided
    · exact hdep hp
    · have hp' : ¬c'.provided := by rwa [hprovided]
      exact (hleads'.leadsTo.dep_eq hp').trans (hleads.leadsTo.dep_eq hp).symm
  obtain ⟨condition, provided, dep, idx⟩ := c
  obtain ⟨condition', provided', dep', idx'⟩ := c'
  dsimp only at hcond hcond' hprovided hidx hname
  rw [hcond, hcond', hprovided, hidx, hname]

/-- The candidates before an entry are those of the entries before. -/
theorem first_iff (before : List Dependency) {d : Dependency} {c : Candidate} (hc : c ∈ candidates t src d) :
    First (before.flatMap (candidates t src)) c ↔ FirstLead t src before d c.provided c.dep c.idx := by
  have hleads := ((mem_candidates_iff d c).mp hc).2
  simp only [First, List.mem_flatMap, mem_candidates_iff, forall_exists_index, and_imp]
  constructor
  · rintro ⟨hdirect, hprovided⟩
    refine ⟨hleads, fun e he other hother => ?_, fun hp e he hother => ?_⟩
    · exact hdirect ⟨e.condition, false, other, c.idx⟩ e he rfl hother Bool.false_ne_true rfl
    · exact hprovided hp ⟨e.condition, true, c.dep, c.idx⟩ e he rfl hother rfl rfl
  · rintro ⟨-, hdirect, hprovided⟩
    refine ⟨fun c' e he _ hother hnot hidx => ?_, fun hp c' e he _ hother hp' heq => ?_⟩
    · rw [Bool.not_eq_true] at hnot
      rw [hnot, hidx] at hother
      exact hdirect e he c'.dep hother
    · obtain ⟨hdep, hidx⟩ := Prod.mk.inj heq
      rw [hp', hdep, hidx] at hother
      exact hprovided hp e he hother

theorem First.of_append {pre more : List Candidate} {c : Candidate} (h : First (pre ++ more) c) : First pre c :=
  ⟨fun c' hc' => h.1 c' (List.mem_append_left _ hc'), fun hp c' hc' => h.2 hp c' (List.mem_append_left _ hc')⟩

/-- Among the candidates of one entry, only the same one stands in the way. -/
theorem First.append_alike {pre more : List Candidate} {c : Candidate} (h : First pre c) (hmem : c ∉ more)
    (halike : ∀ c' ∈ more, c'.provided = c.provided ∧ c'.idx = c.idx ∧ ((c.provided → c'.dep = c.dep) → c' = c)) :
    First (pre ++ more) c := by
  constructor
  · intro c' hc' hnot
    rcases List.mem_append.mp hc' with hpre | hmore
    · exact h.1 c' hpre hnot
    · obtain ⟨hprovided, -, hsame⟩ := halike c' hmore
      rw [hprovided] at hnot
      rw [hsame fun hp => absurd hp hnot] at hmore
      exact absurd hmore hmem
  · intro hp c' hc' hp' heq
    rcases List.mem_append.mp hc' with hpre | hmore
    · exact h.2 hp c' hpre hp' heq
    · obtain ⟨-, -, hsame⟩ := halike c' hmore
      rw [hsame fun _ => (Prod.mk.inj heq).1] at hmore
      exact hmem hmore

theorem not_first_of_mem {pre : List Candidate} {c : Candidate} (hmem : c ∈ pre) : ¬First pre c := by
  intro h
  by_cases hp : c.provided
  · exact h.2 hp c hmem hp rfl
  · exact h.1 c hmem hp rfl

theorem noLater_append (pre cs cs' : List Candidate) (key : Text) :
    NoLater pre (cs ++ cs') key ↔ NoLater pre cs key ∧ NoLater (pre ++ cs) cs' key := by
  induction cs generalizing pre with
  | nil => simp [NoLater]
  | cons c cs ih =>
    rw [List.cons_append, NoLater, NoLater, ih, List.append_assoc, List.singleton_append, and_assoc]

theorem kept_append (pre cs cs' : List Candidate) (c : Candidate) :
    Kept pre (cs ++ cs') c ↔ Kept pre cs c ∧ NoLater (pre ++ cs) cs' c.key ∨ Kept (pre ++ cs) cs' c := by
  induction cs generalizing pre with
  | nil => simp [Kept]
  | cons x cs ih =>
    rw [List.cons_append, Kept, Kept, ih, noLater_append, List.append_assoc, List.singleton_append, or_and_right,
      or_assoc]
    apply or_congr_left
    constructor
    · rintro ⟨rfl, hfirst, hlater, hrest⟩
      exact ⟨⟨rfl, hfirst, hlater⟩, hrest⟩
    · rintro ⟨⟨rfl, hfirst, hlater⟩, hrest⟩
      exact ⟨rfl, hfirst, hlater, hrest⟩

theorem noLater_of_first {pre cs : List Candidate} {key : Text} (h : ∀ c ∈ cs, First pre c → c.key ≠ key) :
    NoLater pre cs key := by
  induction cs generalizing pre with
  | nil => trivial
  | cons c cs ih =>
    refine ⟨h c List.mem_cons_self, ih fun c' hc' hfirst => ?_⟩
    exact h c' (List.mem_cons_of_mem _ hc') hfirst.of_append

theorem first_of_kept {pre cs : List Candidate} {c : Candidate} (h : Kept pre cs c) : c ∈ cs ∧ First pre c := by
  induction cs generalizing pre with
  | nil => exact h.elim
  | cons x cs ih =>
    rcases h with ⟨rfl, hfirst, -⟩ | hrest
    · exact ⟨List.mem_cons_self, hfirst⟩
    · exact ⟨List.mem_cons_of_mem _ (ih hrest).1, (ih hrest).2.of_append⟩

/-- Within the candidates of one entry, the first of several that are equal is the one that counts. -/
theorem first_occurrence {d : Dependency} {pre : List Candidate} {c : Candidate} (hc : c ∈ candidates t src d)
    (hfirst : First pre c) :
    ∃ l r, candidates t src d = l ++ c :: r ∧ First (pre ++ l) c := by
  obtain ⟨l, r, hsplit, hmem⟩ := List.eq_append_cons_of_mem hc
  refine ⟨l, r, hsplit, hfirst.append_alike hmem fun c' hc' => candidates_alike hc ?_⟩
  rw [hsplit]
  exact List.mem_append_left _ hc'

theorem noLater_candidates (pre : List Candidate) (d : Dependency) (key : Text) :
    NoLater pre (candidates t src d) key ↔ ∀ c ∈ candidates t src d, First pre c → c.key ≠ key := by
  constructor
  · intro h c hc hfirst
    obtain ⟨l, r, hsplit, hfirst'⟩ := first_occurrence hc hfirst
    rw [hsplit, noLater_append] at h
    exact h.2.1 hfirst'
  · exact noLater_of_first

theorem kept_candidates (pre : List Candidate) (d : Dependency) (c : Candidate) :
    Kept pre (candidates t src d) c ↔ c ∈ candidates t src d ∧ First pre c := by
  constructor
  · exact first_of_kept
  · rintro ⟨hc, hfirst⟩
    obtain ⟨l, r, hsplit, hfirst'⟩ := first_occurrence hc hfirst
    rw [hsplit, kept_append]
    refine .inr (.inl ⟨rfl, hfirst', noLater_of_first fun x hx hx' hkey => ?_⟩)
    have hmem : x ∈ candidates t src d := by
      rw [hsplit]
      exact List.mem_append_right _ (List.mem_cons_of_mem _ hx)
    obtain ⟨-, hidx, hsame⟩ := candidates_alike hc hmem
    rw [Candidate.key, Candidate.key, hidx] at hkey
    have hxc := hsame fun _ => List.append_cancel_left hkey
    rw [hxc] at hx'
    exact not_first_of_mem (by simp) hx'

theorem noLater_entries (before after : List Dependency) (key : Text) :
    NoLater (before.flatMap (candidates t src)) (after.flatMap (candidates t src)) key ↔
      ∀ between e later, after = between ++ e :: later → ∀ provided name path,
        FirstLead t src (before ++ between) e provided name path → path ++ name ≠ key := by
  induction after generalizing before with
  | nil => simp [NoLater]
  | cons d after ih =>
    have hbefore : before.flatMap (candidates t src) ++ candidates t src d =
        (before ++ [d]).flatMap (candidates t src) := by
      simp
    rw [List.flatMap_cons, noLater_append, hbefore, ih, noLater_candidates]
    constructor
    · rintro ⟨hhead, htail⟩ between e later hsplit provided name path hlead
      rcases List.cons_eq_append_iff.mp hsplit with ⟨rfl, hcons⟩ | ⟨between, rfl, hafter⟩
      · obtain ⟨rfl, -⟩ := List.cons.inj hcons
        rw [List.append_nil] at hlead
        have hmem : (⟨e.condition, provided, name, path⟩ : Candidate) ∈ candidates t src e :=
          (mem_candidates_iff e _).mpr ⟨rfl, hlead.leads⟩
        exact hhead _ hmem ((first_iff before hmem).mpr hlead)
      · rw [← List.singleton_append, ← List.append_assoc] at hlead
        exact htail between e later hafter provided name path hlead
    · intro h
      refine ⟨fun c hc hfirst => ?_, fun between e later hafter provided name path hlead => ?_⟩
      · refine h [] d after rfl c.provided c.dep c.idx ?_
        rw [List.append_nil]
        exact (first_iff before hc).mp hfirst
      · refine h (d :: between) e later (congrArg (d :: ·) hafter) provided name path ?_
        rwa [← List.singleton_append, ← List.append_assoc]

theorem kept_entries (before after : List Dependency) (c : Candidate) :
    Kept (before.flatMap (candidates t src)) (after.flatMap (candidates t src)) c ↔
      ∃ l d r, after = l ++ d :: r ∧ c ∈ candidates t src d ∧
        FirstLead t src (before ++ l) d c.provided c.dep c.idx ∧
          NoLater ((before ++ l ++ [d]).flatMap (candidates t src)) (r.flatMap (candidates t src)) c.key := by
  induction after generalizing before with
  | nil => simp [Kept]
  | cons d after ih =>
    have hbefore : before.flatMap (candidates t src) ++ candidates t src d =
        (before ++ [d]).flatMap (candidates t src) := by
      simp
    rw [List.flatMap_cons, kept_append, hbefore, ih, kept_candidates]
    constructor
    · rintro (⟨⟨hc, hfirst⟩, hlater⟩ | ⟨l, e, r, rfl, hc, hlead, hlater⟩)
      · refine ⟨[], d, after, rfl, hc, ?_, ?_⟩
        · rw [List.append_nil]
          exact (first_iff before hc).mp hfirst
        · rwa [List.append_nil]
      · refine ⟨d :: l, e, r, rfl, hc, ?_, ?_⟩
        · rwa [← List.singleton_append, ← List.append_assoc]
        · rwa [← List.singleton_append (l := l), ← List.append_assoc before]
    · rintro ⟨l, e, r, hsplit, hc, hlead, hlater⟩
      rcases List.cons_eq_append_iff.mp hsplit with ⟨rfl, hcons⟩ | ⟨l, rfl, hafter⟩
      · obtain ⟨rfl, rfl⟩ := List.cons.inj hcons
        rw [List.append_nil] at hlead hlater
        exact .inl ⟨⟨hc, (first_iff before hc).mpr hlead⟩, hlater⟩
      · refine .inr ⟨l, e, r, hafter, hc, ?_, ?_⟩
        · rwa [← List.singleton_append, ← List.append_assoc] at hlead
        · rwa [← List.singleton_append (l := l), ← List.append_assoc before] at hlater

/-- The candidates that are kept are those of the decisive entries. -/
theorem kept_iff (c : Candidate) :
    Kept [] (allCandidates t src) c ↔
      ∃ d, c.condition = d.condition ∧ Decisive t src (srcdeps t src) d c.provided c.dep c.idx := by
  have hkept := @kept_entries t src [] (srcdeps t src) c
  rw [List.flatMap_nil] at hkept
  rw [allCandidates, hkept]
  simp only [Decisive, List.nil_append, noLater_entries, List.append_assoc, List.singleton_append, Candidate.key]
  constructor
  · rintro ⟨before, d, after, hsplit, hc, hlead, hlater⟩
    exact ⟨d, ((mem_candidates_iff d c).mp hc).1, before, after, hsplit, hlead, hlater⟩
  · rintro ⟨d, hcondition, before, after, hsplit, hlead, hlater⟩
    exact ⟨before, d, after, hsplit, (mem_candidates_iff d c).mpr ⟨hcondition, hlead.leads⟩, hlead, hlater⟩

theorem edgeRemains_iff (conf : Text → Bool) (path : Text) :
    EdgeRemains t src conf path ↔ ∃ c, Kept [] (allCandidates t src) c ∧ c.idx = path ∧ c.holds conf := by
  constructor
  · rintro ⟨d, provided, name, hdecisive, hcondition, hselected⟩
    exact ⟨⟨d.condition, provided, name, path⟩, (kept_iff _).mpr ⟨d, rfl, hdecisive⟩, rfl, hcondition, hselected⟩
  · rintro ⟨c, hkept, rfl, hcondition, hselected⟩
    obtain ⟨d, hd, hdecisive⟩ := (kept_iff c).mp hkept
    rw [hd] at hcondition
    exact ⟨d, c.provided, c.dep, hdecisive, hcondition, hselected⟩

end Entries

/-! ## Lines -/

/-- A source has one line, for the first of its packages. -/
theorem mem_packageLines (t : Tables) (done : List Text) (entries : List Entry) (line : Line) :
    line ∈ packageLines t done entries ↔ line.src ∉ done ∧
      ∃ entry ∈ entries.find? fun entry => entry.src = line.src, entry.subdir = line.subdir ∧
        line.deps = (depState (allCandidates t line.src)).deplines.entries.map Sigma.snd := by
  induction entries generalizing done with
  | nil => simp [packageLines]
  | cons entry rest ih =>
    rw [packageLines]
    by_cases hsrc : entry.src = line.src
    · have hfind : (entry :: rest).find? (fun entry => entry.src = line.src) = some entry :=
        List.find?_cons_of_pos (decide_eq_true hsrc)
      rw [hfind]
      simp only [Option.mem_def, Option.some.injEq, exists_eq_left']
      split
      · rename_i hdone
        rw [ih]
        rw [hsrc] at hdone
        exact iff_of_false (fun h => h.1 hdone) (fun h => h.1 hdone)
      · rename_i hdone
        rw [List.mem_cons, ih, hsrc]
        rw [hsrc] at hdone
        constructor
        · rintro (heq | ⟨hnot, -⟩)
          · exact ⟨hdone, (congrArg Line.subdir heq).symm, congrArg Line.deps heq⟩
          · exact absurd List.mem_cons_self hnot
        · rintro ⟨-, hsubdir, hdeps⟩
          rw [hsubdir, ← hdeps]
          exact Or.inl rfl
    · have hfind : (entry :: rest).find? (fun entry => entry.src = line.src) =
          rest.find? fun entry => entry.src = line.src :=
        List.find?_cons_of_neg fun h => hsrc (of_decide_eq_true h)
      rw [hfind]
      split
      · exact ih done
      · have hother : line.src ∉ entry.src :: done ↔ line.src ∉ done := by
          rw [List.mem_cons, not_or]
          exact and_iff_right (Ne.symm hsrc)
        rw [List.mem_cons, ih, hother]
        constructor
        · rintro (rfl | h)
          · exact absurd rfl hsrc
          · exact h
        · exact Or.inr

/-- The line of a source has the directory of the source: the first package of a source with this name is in it. -/
def HasLine (t : Tables) (source : Source) : Prop :=
  ∃ entry ∈ (ownEntries t).find? fun entry => entry.src = source.src, entry.subdir = source.subdir

theorem waits_iff (m : Metadata) (conf : Text → Bool) (source : Source) (path : Text) :
    Waits m conf source path ↔ HasLine (parsePackageMetadata m) source ∧
      ∃ c, Kept [] (allCandidates (parsePackageMetadata m) source.src) c ∧ c.idx = path ∧ c.holds conf := by
  rw [Waits, genPackageMk, HasLine]
  constructor
  · rintro ⟨line, hline, hsubdir, hsrc, c, hc, hidx, hholds⟩
    obtain ⟨-, entry, hentry, hdir, hdeps⟩ := (mem_packageLines _ _ _ _).mp hline
    rw [hdeps, mem_deplines_iff, hsrc] at hc
    rw [hsrc] at hentry
    exact ⟨⟨entry, hentry, hdir.trans hsubdir⟩, c, hc, hidx, hholds⟩
  · rintro ⟨⟨entry, hentry, hdir⟩, c, hc, hidx, hholds⟩
    refine ⟨⟨source.subdir, source.src,
      (depState (allCandidates (parsePackageMetadata m) source.src)).deplines.entries.map Sigma.snd⟩,
      (mem_packageLines _ _ _ _).mpr ?_, rfl, rfl, c, ?_, hidx, hholds⟩
    · exact ⟨List.not_mem_nil, entry, hentry, hdir, rfl⟩
    · exact (mem_deplines_iff _ c).mpr hc

/-- Two sources build a package that provides `v`, and a third one depends on it. -/
def twoProviders : Metadata :=
  [⟨"net/".toList, "s".toList, [⟨"p".toList, ["v".toList], [], [], []⟩]⟩,
    ⟨"net/".toList, "t".toList, [⟨"q".toList, ["v".toList], [], [], []⟩]⟩,
    ⟨"net/".toList, "u".toList, [⟨"r".toList, [], ["+v".toList], [], []⟩]⟩]

end Neufbox.Packages
