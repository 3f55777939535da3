import Neufbox.Packages.Feeds

/-! # What an installation from feeds brings with it

After requests that all went well, the dependencies of what was linked are provided, as far as the calls go over all
of them and skip none that is missing. -/
namespace Neufbox.Packages
open RunAlong Search
set_option autoImplicit false
set_option maxHeartbeats 250000
set_option maxRecDepth 120000

/-! ## What is provided -/

/-- A package has this name or stands in for it. -/
def Stanza.Offers (s : Stanza) (name : Text) : Prop := name = s.name ∨ name ∈ s.provides

instance Stanza.Offers.decidable (s : Stanza) (name : Text) : Decidable (s.Offers name) :=
  inferInstanceAs (Decidable (name = s.name ∨ name ∈ s.provides))

/-- The binary packages built from a linked directory. -/
def Link.builds (l : Link) : List Stanza :=
  ((l.feed.index.getD []).filter fun source => source.subdir = l.subdir ∧ source.src = l.src).flatMap Source.packages

/-- Some feed has the package in its index. -/
def Offered (env : Setup) (name : Text) : Prop := ∃ f ∈ env.feeds, (getFeed f).package.lookup name ≠ none

/-- A source of the tree, or one that is linked, builds a package with this name. -/
def Provided (env : Setup) (st : InstallState) (name : Text) : Prop :=
  (∃ source ∈ env.tree, ∃ s ∈ source.packages, s.Offers name) ∨ ∃ l ∈ st.links, ∃ s ∈ l.builds, s.Offers name

/-- The dependencies of all that is linked are provided, if a feed offers them. -/
def FeedsClosed (env : Setup) (st : InstallState) : Prop :=
  ∀ l ∈ st.links, ∀ s ∈ l.builds, ∀ dep ∈ s.allDepends, '@' ∉ dep → Offered env (cleanDependency dep) →
    Provided env st (cleanDependency dep)

theorem Provided.mono {env : Setup} {st st' : InstallState} {name : Text} (hlinks : st.links ⊆ st'.links)
    (h : Provided env st name) : Provided env st' name :=
  h.imp_right fun ⟨l, hl, hs⟩ => ⟨l, hlinks hl, hs⟩

/-! ## Tables -/

/-- An entry has the directory of a source that builds a package with its name. -/
def FromSources (m : Metadata) (t : Tables) : Prop :=
  ∀ name entry, t.package.lookup name = some entry → ∃ source ∈ m, source.subdir = entry.subdir ∧
    source.src = entry.src ∧ ∃ s ∈ source.packages, s.Offers name

theorem addProvides_fromSources {m : Metadata} {source : Source} (hsource : source ∈ m) {s : Stanza}
    (hs : s ∈ source.packages) {vpkg : Text} (hvpkg : vpkg ∈ s.provides) {t : Tables} (h : FromSources m t) :
    FromSources m (addProvides source s.name t vpkg) := by
  intro name entry hlookup
  by_cases hname : name = vpkg
  · subst hname
    rw [addProvides, AList.lookup_insert] at hlookup
    cases hold : t.package.lookup name with
    | none =>
      rw [hold] at hlookup
      obtain rfl := Option.some.inj hlookup
      exact ⟨source, hsource, rfl, rfl, s, hs, Or.inr hvpkg⟩
    | some old =>
      rw [hold] at hlookup
      obtain rfl := Option.some.inj hlookup
      exact h name old hold
  · rw [addProvides, AList.lookup_insert_ne hname] at hlookup
    exact h name entry hlookup

theorem addPackage_fromSources {m : Metadata} {source : Source} (hsource : source ∈ m) {s : Stanza}
    (hs : s ∈ source.packages) {t : Tables} (h : FromSources m t) : FromSources m (addPackage source t s) := by
  apply run_preserves_mem
  · intro t vpkg hvpkg ht
    exact addProvides_fromSources hsource hs hvpkg ht
  · intro name entry hlookup
    by_cases hname : name = s.name
    · subst hname
      rw [AList.lookup_insert] at hlookup
      obtain rfl := Option.some.inj hlookup
      exact ⟨source, hsource, rfl, rfl, s, hs, Or.inl rfl⟩
    · rw [AList.lookup_insert_ne hname] at hlookup
      exact h name entry hlookup

theorem parsePackageMetadata_fromSources (m : Metadata) : FromSources m (parsePackageMetadata m) := by
  apply run_preserves_mem
  · intro t source hsource ht
    apply run_preserves_mem
    · intro t s hs ht
      exact addPackage_fromSources hsource hs ht
    · exact ht
  · intro name entry hlookup
    rw [AList.lookup_empty] at hlookup
    cases hlookup

theorem lookupPackage_eq_some {env : Setup} {preferred : Option env.Feed} {name : Text} {f : env.Feed}
    {entry : Entry} (h : lookupPackage env preferred name = some (f, entry)) :
    (getFeed f.1).package.lookup name = some entry := by
  obtain ⟨f', -, hf'⟩ := List.exists_of_findSome?_eq_some h
  split at hf'
  · obtain ⟨entry', hentry, heq⟩ := Option.map_eq_some_iff.mp hf'
    obtain ⟨rfl, rfl⟩ := Prod.mk.inj heq
    exact hentry
  · cases hf'

/-- The directory that a call links builds the package. -/
theorem link_offers {f : Feed} {name : Text} {entry : Entry} (h : (getFeed f).package.lookup name = some entry) :
    ∃ s ∈ Link.builds ⟨f, entry.subdir, entry.src⟩, s.Offers name := by
  rw [getFeed] at h
  cases hindex : f.index with
  | none =>
    rw [hindex, Option.map_none, Option.getD_none, AList.lookup_empty] at h
    cases h
  | some m =>
    rw [hindex, Option.map_some, Option.getD_some] at h
    obtain ⟨source, hsource, hsubdir, hsrc, s, hs, hoffers⟩ := parsePackageMetadata_fromSources m name entry h
    refine ⟨s, ?_, hoffers⟩
    rw [Link.builds, hindex, Option.getD_some, List.mem_flatMap]
    exact ⟨source, List.mem_filter.mpr ⟨hsource, decide_eq_true ⟨hsubdir, hsrc⟩⟩, hs⟩

/-! ## Calls -/

/-- A call returns without a link: the package is in no feed, has a name that is false, or it or its source is marked. -/
def Skips (env : Setup) (st : InstallState) (r : Request env) : Prop :=
  ∀ found ∈ lookupPackage env r.preferred r.name,
    ¬Truthy r.name ∨ sourceName r.name found.2 ∈ st.installed ∨ r.name ∈ st.installed

/-- All a call can do. -/
theorem visitPackage_cases (env : Setup) (ix : Index) (st : InstallState) (r : Request env) :
    Skips env st r ∧ visitPackage env ix st r = .done st true ∨
      (¬Skips env st r ∧ ∃ f entry, lookupPackage env r.preferred r.name = some (f, entry) ∧
        f.1.method ∉ installMethods ∧
        visitPackage env ix st r = .done { st with installed := sourceName r.name entry :: st.installed } false) ∨
      ¬Skips env st r ∧ ∃ f entry, lookupPackage env r.preferred r.name = some (f, entry) ∧
        f.1.method ∈ installMethods ∧ sourceName r.name entry ∉ st.installed ∧
        visitPackage env ix st r =
          .enter ⟨sourceName r.name entry :: st.installed, ⟨f.1, entry.subdir, entry.src⟩ :: st.links⟩
            ((dependencyNames ix f.1 (sourceName r.name entry) entry).map fun dep => ⟨some f, dep⟩) := by
  cases hlookup : lookupPackage env r.preferred r.name with
  | none =>
    refine Or.inl ⟨?_, ?_⟩
    · rw [Skips, hlookup]
      rintro found ⟨⟩
    · rw [visitPackage, hlookup]
  | some found =>
    obtain ⟨f, entry⟩ := found
    have hskips : Skips env st r ↔
        ¬Truthy r.name ∨ sourceName r.name entry ∈ st.installed ∨ r.name ∈ st.installed := by
      rw [Skips, hlookup]
      simp only [Option.mem_def, Option.some.injEq, forall_eq']
    rw [visitPackage, hlookup, hskips]
    dsimp only
    split
    · rename_i hname
      exact Or.inl ⟨Or.inl hname, rfl⟩
    · split
      · rename_i hmark
        exact Or.inl ⟨Or.inr hmark, rfl⟩
      · rename_i hname hmark
        have hnot : ¬(¬Truthy r.name ∨ sourceName r.name entry ∈ st.installed ∨ r.name ∈ st.installed) :=
          fun h => h.elim hname hmark
        split
        · rename_i hmethod
          exact Or.inr (Or.inl ⟨hnot, f, entry, rfl, hmethod, rfl⟩)
        · rename_i hmethod
          exact Or.inr (Or.inr ⟨hnot, f, entry, rfl, not_not.mp hmethod, fun h => hmark (Or.inl h), rfl⟩)

/-! ## Calls return -/

/-- The names that are still to be marked. -/
def unmarked (env : Setup) (st : InstallState) : Finset Text := (sourceNames env).toFinset \ st.installed.toFinset

theorem sourceName_mem {env : Setup} {f : env.Feed} {name : Text} {entry : Entry}
    (h : (getFeed f.1).package.lookup name = some entry) : sourceName name entry ∈ sourceNames env := by
  rw [sourceNames, List.mem_flatMap]
  exact ⟨f.1, f.2, List.mem_map.mpr ⟨⟨name, entry⟩, AList.mem_lookup_iff.mp h, rfl⟩⟩

theorem unmarked_mono {env : Setup} {st st' : InstallState} (h : st.installed ⊆ st'.installed) :
    unmarked env st' ⊆ unmarked env st := by
  apply Finset.sdiff_subset_sdiff (Finset.Subset.refl _)
  intro name hname
  rw [List.mem_toFinset] at hname ⊢
  exact h hname

theorem visitPackage_done_unmarked {env : Setup} {ix : Index} {st st' : InstallState} {r : Request env} {ok : Bool}
    (h : visitPackage env ix st r = .done st' ok) : (unmarked env st').card ≤ (unmarked env st).card := by
  rcases visitPackage_cases env ix st r with ⟨-, hvisit⟩ | ⟨-, f, entry, -, -, hvisit⟩ | ⟨-, f, entry, -, -, -, hvisit⟩
  · cases hvisit.symm.trans h
    exact le_rfl
  · cases hvisit.symm.trans h
    exact Finset.card_le_card (unmarked_mono (List.subset_cons_self _ _))
  · cases hvisit.symm.trans h

theorem visitPackage_enter_unmarked {env : Setup} {ix : Index} {st st' : InstallState} {r : Request env}
    {next : List (Request env)} (h : visitPackage env ix st r = .enter st' next) :
    (unmarked env st').card < (unmarked env st).card := by
  rcases visitPackage_cases env ix st r with ⟨-, hvisit⟩ | ⟨-, f, entry, -, -, hvisit⟩ |
    ⟨-, f, entry, hlookup, -, hnot, hvisit⟩
  · cases hvisit.symm.trans h
  · cases hvisit.symm.trans h
  · cases hvisit.symm.trans h
    have hmem : sourceName r.name entry ∈ unmarked env st := by
      rw [unmarked, Finset.mem_sdiff, List.mem_toFinset, List.mem_toFinset]
      exact ⟨sourceName_mem (lookupPackage_eq_some hlookup), hnot⟩
    apply Finset.card_lt_card
    refine ⟨unmarked_mono (List.subset_cons_self _ _), fun hback => ?_⟩
    have hin := hback hmem
    rw [unmarked, Finset.mem_sdiff, List.mem_toFinset, List.mem_toFinset] at hin
    exact hin.2 List.mem_cons_self

theorem installPackage_returns (env : Setup) (ix : Index) (st : InstallState) (r : Request env) :
    ∃ res, installPackage env ix st r = some res := by
  have hfuel : (unmarked env st).card < installFuel env := by
    have hle : (unmarked env st).card ≤ (sourceNames env).toFinset.card := Finset.card_le_card Finset.sdiff_subset
    have hlen : (sourceNames env).toFinset.card ≤ (sourceNames env).length := List.toFinset_card_le _
    rw [installFuel]
    omega
  have hreturns := @explore_returns _ _ (visitPackage env ix) (fun st => (unmarked env st).card)
    (fun _ _ _ _ => visitPackage_done_unmarked) (fun _ _ _ _ => visitPackage_enter_unmarked) (installFuel env) st r hfuel
  exact hreturns.imp fun _ hres => hres.1

/-! ## Calls provide -/

/-- What a dependency that is skipped needs: it is provided already. -/
def SkipsOnlyProvided (env : Setup) (st : InstallState) (r : Request env) : Prop :=
  Skips env st r → Offered env r.name → Provided env st r.name

/-- What a link needs: the loop behind it goes over the dependencies of all packages of the source. -/
def GoesOverAll (env : Setup) (ix : Index) (st : InstallState) (r : Request env) : Prop :=
  ¬Skips env st r → ∀ found ∈ lookupPackage env r.preferred r.name,
    ∀ s ∈ Link.builds ⟨found.1.1, found.2.subdir, found.2.src⟩, ∀ dep ∈ s.allDepends, '@' ∉ dep →
      Offered env (cleanDependency dep) →
      cleanDependency dep ∈ dependencyNames ix found.1.1 (sourceName r.name found.2) found.2

/-- A dependency of what is linked, that some feed offers. -/
def Owed (env : Setup) (st : InstallState) (name : Text) : Prop :=
  Offered env name ∧ ∃ l ∈ st.links, ∃ s ∈ l.builds, ∃ dep ∈ s.allDepends, '@' ∉ dep ∧ cleanDependency dep = name

theorem feedsClosed_iff (env : Setup) (st : InstallState) :
    FeedsClosed env st ↔ ∀ name, Owed env st name → Provided env st name := by
  constructor
  · rintro h name ⟨hoffered, l, hl, s, hs, dep, hdep, hat, rfl⟩
    exact h l hl s hs dep hdep hat hoffered
  · intro h l hl s hs dep hdep hat hoffered
    exact h _ ⟨hoffered, l, hl, s, hs, dep, hdep, hat, rfl⟩

theorem visitPackage_done_served {env : Setup} {ix : Index} {st st' : InstallState} {r : Request env}
    (h : visitPackage env ix st r = .done st' true) :
    st' = st ∧ (SkipsOnlyProvided env st r → Offered env r.name → Provided env st' r.name) := by
  rcases visitPackage_cases env ix st r with ⟨hskips, hvisit⟩ | ⟨-, f, entry, -, -, hvisit⟩ |
    ⟨-, f, entry, -, -, -, hvisit⟩
  · cases hvisit.symm.trans h
    exact ⟨rfl, fun hprovided => hprovided hskips⟩
  · cases hvisit.symm.trans h
  · cases hvisit.symm.trans h

theorem visitPackage_enter_served {env : Setup} {ix : Index} {st st' : InstallState} {r : Request env}
    {next : List (Request env)} (h : visitPackage env ix st r = .enter st' next) (hall : GoesOverAll env ix st r) :
    st.links ⊆ st'.links ∧ Provided env st' r.name ∧
      ∀ name, Owed env st' name → Owed env st name ∨ ∃ j ∈ next, j.name = name := by
  rcases visitPackage_cases env ix st r with ⟨-, hvisit⟩ | ⟨-, f, entry, -, -, hvisit⟩ |
    ⟨hnot, f, entry, hlookup, -, -, hvisit⟩
  · cases hvisit.symm.trans h
  · cases hvisit.symm.trans h
  · cases hvisit.symm.trans h
    refine ⟨List.subset_cons_self _ _, ?_, ?_⟩
    · exact Or.inr ⟨_, List.mem_cons_self, link_offers (lookupPackage_eq_some hlookup)⟩
    · rintro name ⟨hoffered, l, hl, s, hs, dep, hdep, hat, rfl⟩
      rcases List.mem_cons.mp hl with rfl | hl
      · have hmem := hall hnot (f, entry) hlookup s hs dep hdep hat hoffered
        exact Or.inr ⟨⟨some f, cleanDependency dep⟩, List.mem_map.mpr ⟨_, hmem, rfl⟩, rfl⟩
      · exact Or.inl ⟨hoffered, l, hl, s, hs, dep, hdep, hat, rfl⟩

/-- The calls of a request, below the request itself: they link only what they go over in full, and skip only what is
provided. -/
def RequestMeets (env : Setup) (ix : Index) (st : InstallState) (r : Request env) : Prop :=
  Meets (visitPackage env ix) (SkipsOnlyProvided env) (GoesOverAll env ix) (installFuel env) st r

theorem installPackage_closed {env : Setup} {ix : Index} {st st' : InstallState} {r : Request env}
    (hmeets : RequestMeets env ix st r) (h : installPackage env ix st r = some (st', true))
    (hclosed : FeedsClosed env st) : FeedsClosed env st' := by
  have hserved := @explore_served _ _ _ (visitPackage env ix) (SkipsOnlyProvided env) (GoesOverAll env ix)
    (fun st st' => st.links ⊆ st'.links) Request.name (fun st name => Offered env name → Provided env st name)
    (Owed env) (fun _ => List.Subset.refl _) (fun _ _ _ => List.Subset.trans)
    (fun _ _ _ hlinks hprovided hoffered => (hprovided hoffered).mono hlinks)
    (by
      intro st r st' hvisit
      obtain ⟨rfl, hprovided⟩ := visitPackage_done_served hvisit
      exact ⟨⟨List.Subset.refl _, fun _ => Or.inl⟩, hprovided⟩)
    (by
      intro st r st' next hvisit hall
      obtain ⟨hlinks, hprovided, howed⟩ := visitPackage_enter_served hvisit hall
      exact ⟨hlinks, fun _ _ => hprovided, howed⟩)
    (installFuel env) st r st' hmeets h
  rw [feedsClosed_iff] at hclosed ⊢
  intro name howed
  rcases hserved.1.owes name howed with hold | hprovided
  · exact (hclosed name hold).mono hserved.1.grows
  · exact hprovided howed.1

/-! ## Runs -/

/-- The condition on a step of the run; an index alone meets it. -/
def EventMeets (env : Setup) : Option FeedsRun → FeedsEvent env → Prop
  | some run, .request r => RequestMeets env run.index run.state r
  | _, _ => True

/-- What holds after every step: the run goes on, and what is linked is closed unless a result was not 0. -/
def RunClosed (env : Setup) (r : Option FeedsRun) : Prop :=
  ∃ run, r = some run ∧ (run.ok → FeedsClosed env run.state)

theorem feedsStep_closed {env : Setup} (r : Option FeedsRun) (e : FeedsEvent env) (h : RunClosed env r)
    (hmeets : EventMeets env r e) : RunClosed env (feedsStep env r e) := by
  obtain ⟨run, rfl, hclosed⟩ := h
  cases e with
  | index f => exact ⟨_, rfl, hclosed⟩
  | request r =>
    obtain ⟨⟨st', ok⟩, hres⟩ := installPackage_returns env run.index run.state r
    refine ⟨⟨run.index, st', run.ok && ok⟩, ?_, fun hok => ?_⟩
    · show (installPackage env run.index run.state r).map _ = _
      rw [hres, Option.map_some]
    · obtain ⟨hrun, rfl⟩ := Bool.and_eq_true_iff.mp hok
      exact installPackage_closed hmeets hres (hclosed hrun)

section Decidable
variable (env : Setup) (ix : Index) (st : InstallState) (r : Request env)

instance Skips.decidable : Decidable (Skips env st r) :=
  inferInstanceAs (Decidable (∀ found ∈ lookupPackage env r.preferred r.name, _))

instance Offered.decidable (name : Text) : Decidable (Offered env name) :=
  inferInstanceAs (Decidable (∃ f ∈ env.feeds, _))

instance Provided.decidable (name : Text) : Decidable (Provided env st name) :=
  inferInstanceAs (Decidable ((∃ source ∈ env.tree, _) ∨ ∃ l ∈ st.links, _))

instance FeedsClosed.decidable : Decidable (FeedsClosed env st) :=
  inferInstanceAs (Decidable (∀ l ∈ st.links, _))

instance SkipsOnlyProvided.decidable : Decidable (SkipsOnlyProvided env st r) :=
  inferInstanceAs (Decidable (Skips env st r → _))

instance GoesOverAll.decidable : Decidable (GoesOverAll env ix st r) :=
  inferInstanceAs (Decidable (¬Skips env st r → _))

instance RequestMeets.decidable : Decidable (RequestMeets env ix st r) :=
  inferInstanceAs (Decidable (Meets _ _ _ _ _ _))

instance EventMeets.decidable (run : Option FeedsRun) (e : FeedsEvent env) : Decidable (EventMeets env run e) :=
  match run, e with
  | some run, .request r => inferInstanceAs (Decidable (RequestMeets env run.index run.state r))
  | none, .request _ => isTrue trivial
  | none, .index _ => isTrue trivial
  | some _, .index _ => isTrue trivial

end Decidable

/-- The first feed has a source with one package, the second one a source with two. -/
def twoFeeds : Setup where
  feeds :=
    [⟨"src-svn".toList, "a".toList, some [⟨[], "s".toList, [⟨"p".toList, [], ["+q".toList], [], []⟩]⟩]⟩,
      ⟨"src-git".toList, "b".toList, some [⟨[], "t".toList,
        [⟨"q".toList, [], [], [], []⟩, ⟨"r".toList, [], ["p".toList], [], []⟩]⟩]⟩]
  tree := []

/-- The same feeds the other way round: now the source with two packages is not in the feed indexed last. -/
def twoFeedsTurned : Setup where
  feeds :=
    [⟨"src-git".toList, "b".toList, some [⟨[], "t".toList,
        [⟨"q".toList, [], [], [], []⟩, ⟨"r".toList, [], ["p".toList], [], []⟩]⟩]⟩,
      ⟨"src-svn".toList, "a".toList, some [⟨[], "s".toList, [⟨"p".toList, [], [], [], []⟩]⟩]⟩]
  tree := []

end Neufbox.Packages
