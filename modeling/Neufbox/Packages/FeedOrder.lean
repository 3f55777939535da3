import Neufbox.Packages.FeedClosure

/-! # Requests in another order

What `install_package` links is all that the requests lead to, as long as no call finds a name marked by the
installation of something else: then the order of the requests does not matter. -/
namespace Neufbox.Packages
open RunAlong Search
set_option autoImplicit false
set_option maxHeartbeats 250000
set_option maxRecDepth 120000

/-! ## What requests lead to -/

section Asked
variable (env : Setup)

/-- There is nothing to do for a request, whatever is installed after the start. -/
def Idle (r : Request env) : Prop := Skips env (getInstalled env) r

instance Idle.decidable (r : Request env) : Decidable (Idle env r) := Skips.decidable env _ r

def linkOf (r : Request env) : Option Link :=
  (lookupPackage env r.preferred r.name).map fun found => ⟨found.1.1, found.2.subdir, found.2.src⟩

def dependencyRequests (r : Request env) : List (Request env) :=
  match lookupPackage env r.preferred r.name with
  | none => []
  | some (f, entry) =>
    (dependencyNames (firstIndex env) f.1 (sourceName r.name entry) entry).map fun dep => ⟨some f, dep⟩

/-- The requests that a list of requests leads to, through packages that were not installed before. -/
inductive Asked (requests : List (Request env)) : Request env → Prop
  | request {r : Request env} (hr : r ∈ requests) : Asked requests r
  | dependency {r r' : Request env} (h : Asked requests r) (hidle : ¬Idle env r) (hr' : r' ∈ dependencyRequests env r) :
      Asked requests r'

/-- A request that does the work of another one. -/
def Covers (r₀ r : Request env) : Prop :=
  linkOf env r₀ = linkOf env r ∧ ∀ r' ∈ dependencyRequests env r, r' ∈ dependencyRequests env r₀

end Asked

theorem Asked.of_perm {env : Setup} {requests requests' : List (Request env)} (hperm : requests.Perm requests')
    {r : Request env} (h : Asked env requests r) : Asked env requests' r := by
  induction h with
  | request hr => exact .request (hperm.mem_iff.mp hr)
  | dependency _ hidle hr' ih => exact .dependency ih hidle hr'

/-! ## Calls and what was linked before -/

/-- The state, and the requests for which a directory was linked. -/
abbrev LoggedState (env : Setup) := InstallState × List (Request env)

/-- A call that returns at once has nothing to do, or its work was done for a request before it. -/
def SkipsOnlyLinked (env : Setup) (s : LoggedState env) (r : Request env) : Prop :=
  Skips env s.1 r → Idle env r ∨ ∃ r₀ ∈ s.2, Covers env r₀ r

def loggedVisit (env : Setup) : LoggedState env → Request env → Visit (LoggedState env) (Request env) :=
  logged (visitPackage env (firstIndex env))

def loggedInstall (env : Setup) : LoggedState env → Request env → Option (LoggedState env × Bool) :=
  explore (loggedVisit env) (installFuel env)

/-- All calls of a request, the request itself among them, skip only what was linked. -/
def LoggedMeets (env : Setup) (s : LoggedState env) (r : Request env) : Prop :=
  Meets (loggedVisit env) (SkipsOnlyLinked env) (SkipsOnlyLinked env) (installFuel env) s r

def loggedRun (env : Setup) (requests : List (Request env)) : Option (LoggedState env × Bool) :=
  runSteps (thenVisit (loggedInstall env)) (some ((getInstalled env, []), true)) requests

/-- All calls of a list of requests skip only what was linked. -/
def CallsMeet (env : Setup) (requests : List (Request env)) : Prop :=
  Along (thenVisit (loggedInstall env)) (fun run r => ∀ s ∈ run, LoggedMeets env s.1 r)
    (some ((getInstalled env, []), true)) requests

section Visits
variable {env : Setup}

theorem Skips.mono {st st' : InstallState} {r : Request env} (hsub : st.installed ⊆ st'.installed) (h : Skips env st r) :
    Skips env st' r := by
  intro found hfound
  rcases h found hfound with hname | hsrc | hmarked
  · exact Or.inl hname
  · exact Or.inr (Or.inl (hsub hsrc))
  · exact Or.inr (Or.inr (hsub hmarked))

def Installable (r : Request env) : Prop := ∀ link ∈ linkOf env r, link.feed.method ∈ installMethods

/-- All a call can do, with the requests that were linked. -/
theorem loggedVisit_cases (s : LoggedState env) (r : Request env) :
    Skips env s.1 r ∧ loggedVisit env s r = .done s true ∨
      (¬Skips env s.1 r ∧ ¬Installable r ∧ ∃ st', s.1.installed ⊆ st'.installed ∧ st'.links = s.1.links ∧
        loggedVisit env s r = .done (st', s.2) false) ∨
      (¬Skips env s.1 r ∧ Installable r ∧ ∃ st' link, s.1.installed ⊆ st'.installed ∧ linkOf env r = some link ∧
        st'.links = link :: s.1.links ∧ loggedVisit env s r = .enter (st', r :: s.2) (dependencyRequests env r)) := by
  have hsub : ∀ name, s.1.installed ⊆ name :: s.1.installed := fun name => List.subset_cons_self _ _
  rw [loggedVisit, logged]
  rcases visitPackage_cases env (firstIndex env) s.1 r with ⟨hskips, hvisit⟩ |
    ⟨hnot, f, entry, hlookup, hmethod, hvisit⟩ | ⟨hnot, f, entry, hlookup, hmethod, -, hvisit⟩
  · rw [hvisit]
    exact Or.inl ⟨hskips, rfl⟩
  · rw [hvisit]
    have hlink : linkOf env r = some ⟨f.1, entry.subdir, entry.src⟩ := by rw [linkOf, hlookup, Option.map_some]
    exact Or.inr (Or.inl ⟨hnot, fun hinst => hmethod (hinst _ hlink),
      ⟨sourceName r.name entry :: s.1.installed, s.1.links⟩, hsub _, rfl, rfl⟩)
  · rw [hvisit]
    have hlink : linkOf env r = some ⟨f.1, entry.subdir, entry.src⟩ := by rw [linkOf, hlookup, Option.map_some]
    have hinst : Installable r := by
      intro link hmem
      rw [hlink] at hmem
      cases hmem
      exact hmethod
    refine Or.inr (Or.inr ⟨hnot, hinst, ⟨sourceName r.name entry :: s.1.installed,
      ⟨f.1, entry.subdir, entry.src⟩ :: s.1.links⟩, _, hsub _, hlink, rfl, ?_⟩)
    rw [dependencyRequests, hlookup]

end Visits

/-! ## Runs -/

section Runs
variable {env : Setup} {requests : List (Request env)}

/-- What holds at every call: the start is still installed, and what is linked was asked for. -/
structure LinkedAsked (env : Setup) (requests : List (Request env)) (s : LoggedState env) : Prop where
  installed : (getInstalled env).installed ⊆ s.1.installed
  asked : ∀ r ∈ s.2, Asked env requests r ∧ ¬Idle env r ∧ Installable r
  links : ∀ link, link ∈ s.1.links ↔ ∃ r ∈ s.2, linkOf env r = some link

theorem LinkedAsked.start : LinkedAsked env requests (getInstalled env, []) where
  installed := List.Subset.refl _
  asked := fun _ hr => absurd hr List.not_mem_nil
  links := fun _ => ⟨fun hl => absurd hl List.not_mem_nil, fun ⟨_, hr, _⟩ => absurd hr List.not_mem_nil⟩

theorem LinkedAsked.not_idle {s : LoggedState env} (h : LinkedAsked env requests s) {r : Request env}
    (hskips : ¬Skips env s.1 r) : ¬Idle env r := fun hidle => hskips (Skips.mono h.installed hidle)

theorem linkedAsked_done {s s' : LoggedState env} {r : Request env} {ok : Bool} (h : LinkedAsked env requests s)
    (hr : Asked env requests r) (hvisit : loggedVisit env s r = .done s' ok) :
    LinkedAsked env requests s' ∧ (ok = true ∨ ∃ r, Asked env requests r ∧ ¬Idle env r ∧ ¬Installable r) := by
  rcases loggedVisit_cases s r with ⟨-, hcase⟩ | ⟨hskips, hinst, st', hsub, hlinks, hcase⟩ |
    ⟨-, -, st', link, -, -, -, hcase⟩
  · cases hcase.symm.trans hvisit
    exact ⟨h, Or.inl rfl⟩
  · cases hcase.symm.trans hvisit
    refine ⟨⟨List.Subset.trans h.installed hsub, h.asked, ?_⟩, Or.inr ⟨r, hr, h.not_idle hskips, hinst⟩⟩
    rw [hlinks]
    exact h.links
  · cases hcase.symm.trans hvisit

theorem linkedAsked_enter {s s' : LoggedState env} {r : Request env} {next : List (Request env)}
    (h : LinkedAsked env requests s) (hr : Asked env requests r) (hvisit : loggedVisit env s r = .enter s' next) :
    LinkedAsked env requests s' ∧ ∀ r' ∈ next, Asked env requests r' := by
  rcases loggedVisit_cases s r with ⟨-, hcase⟩ | ⟨-, -, st', -, -, hcase⟩ |
    ⟨hskips, hinst, st', link, hsub, hlink, hlinks, hcase⟩
  · cases hcase.symm.trans hvisit
  · cases hcase.symm.trans hvisit
  · cases hcase.symm.trans hvisit
    have hidle : ¬Idle env r := h.not_idle hskips
    refine ⟨⟨List.Subset.trans h.installed hsub, ?_, ?_⟩, fun r' hr' => .dependency hr hidle hr'⟩
    · intro r' hr'
      rcases List.mem_cons.mp hr' with rfl | hr'
      · exact ⟨hr, hidle, hinst⟩
      · exact h.asked r' hr'
    · intro l
      rw [hlinks, List.mem_cons, h.links, List.exists_mem_cons_iff, hlink, Option.some.injEq, eq_comm]

theorem loggedRun_preserves {s : LoggedState env} {ok : Bool} (hrun : loggedRun env requests = some (s, ok)) :
    LinkedAsked env requests s ∧ (ok = true ∨ ∃ r, Asked env requests r ∧ ¬Idle env r ∧ ¬Installable r) := by
  refine loop_preserves (fun s r res hs hr h => ?_) (fun r hr => Asked.request hr) LinkedAsked.start hrun
  exact explore_preserves (fun _ _ _ _ => linkedAsked_done) (fun _ _ _ _ => linkedAsked_enter) _ s r res hs hr h

def Settled (env : Setup) (s : LoggedState env) (r : Request env) : Prop :=
  Idle env r ∨ ∃ r₀ ∈ s.2, Covers env r₀ r

def Pending (env : Setup) (s : LoggedState env) (r : Request env) : Prop :=
  ∃ r₀ ∈ s.2, r ∈ dependencyRequests env r₀

theorem settled_mono {s s' : LoggedState env} {r : Request env} (hsub : s.2 ⊆ s'.2) (h : Settled env s r) :
    Settled env s' r := h.imp_right fun ⟨r₀, hr₀, hcovers⟩ => ⟨r₀, hsub hr₀, hcovers⟩

theorem loggedInstall_served (s : LoggedState env) (r : Request env) (s' : LoggedState env)
    (hmeets : LoggedMeets env s r) (h : loggedInstall env s r = some (s', true)) :
    Served (fun s s' : LoggedState env => s.2 ⊆ s'.2) (Settled env) (Pending env) s s' ∧ Settled env s' r := by
  have hself : SkipsOnlyLinked env s r := by
    rw [LoggedMeets, installFuel, Meets] at hmeets
    exact hmeets.1
  have hserved := @explore_served _ _ _ (loggedVisit env) (SkipsOnlyLinked env) (SkipsOnlyLinked env)
    (fun s s' => s.2 ⊆ s'.2) id (Settled env) (Pending env) (fun s => List.Subset.refl s.2)
    (fun _ _ _ => List.Subset.trans) (fun _ _ _ => settled_mono)
    (by
      intro s r s' hvisit
      rcases loggedVisit_cases s r with ⟨hskips, hcase⟩ | ⟨-, -, st', -, -, hcase⟩ | ⟨-, -, st', link, -, -, -, hcase⟩
      · cases hcase.symm.trans hvisit
        exact ⟨⟨List.Subset.refl _, fun _ => Or.inl⟩, fun hlinked => hlinked hskips⟩
      · cases hcase.symm.trans hvisit
      · cases hcase.symm.trans hvisit)
    (by
      intro s r s' next hvisit _
      rcases loggedVisit_cases s r with ⟨-, hcase⟩ | ⟨-, -, st', -, -, hcase⟩ | ⟨-, -, st', link, -, -, -, hcase⟩
      · cases hcase.symm.trans hvisit
      · cases hcase.symm.trans hvisit
      · cases hcase.symm.trans hvisit
        refine ⟨List.subset_cons_self _ _, fun _ => Or.inr ⟨r, List.mem_cons_self, rfl, fun _ hr' => hr'⟩, ?_⟩
        rintro r' ⟨r₀, hr₀, hr'⟩
        rcases List.mem_cons.mp hr₀ with rfl | hr₀
        · exact Or.inr ⟨r', hr', rfl⟩
        · exact Or.inl ⟨r₀, hr₀, hr'⟩)
    (installFuel env) s r s' hmeets h
  exact ⟨hserved.1, hserved.2 hself⟩

/-- After a run that went well and skipped only what was linked, all that was asked for is settled. -/
theorem loggedRun_settled (hmeets : CallsMeet env requests) {s : LoggedState env}
    (hrun : loggedRun env requests = some (s, true)) {r : Request env} (hr : Asked env requests r) : Settled env s r := by
  obtain ⟨hloop, hall⟩ := @loop_served _ _ _ (fun s s' => s.2 ⊆ s'.2) id (Settled env) (Pending env)
    (fun s => List.Subset.refl s.2) (fun _ _ _ => List.Subset.trans) (fun _ _ _ => settled_mono) (loggedInstall env)
    (LoggedMeets env) loggedInstall_served requests _ s hmeets hrun
  induction hr with
  | request hr => exact hall _ hr
  | @dependency r r' _ hidle hr' ih =>
    rcases ih with hidle' | ⟨r₀, hr₀, -, hdeps⟩
    · exact absurd hidle' hidle
    · rcases hloop.owes r' ⟨r₀, hr₀, hdeps r' hr'⟩ with ⟨_, hnil, -⟩ | hsettled
      · exact absurd hnil List.not_mem_nil
      · exact hsettled

theorem loggedRun_links (hmeets : CallsMeet env requests) {s : LoggedState env}
    (hrun : loggedRun env requests = some (s, true)) (link : Link) :
    link ∈ s.1.links ↔ ∃ r, Asked env requests r ∧ ¬Idle env r ∧ linkOf env r = some link := by
  have hinv := (loggedRun_preserves hrun).1
  rw [hinv.links]
  constructor
  · rintro ⟨r, hr, hlink⟩
    obtain ⟨hasked, hidle, -⟩ := hinv.asked r hr
    exact ⟨r, hasked, hidle, hlink⟩
  · rintro ⟨r, hasked, hidle, hlink⟩
    rcases loggedRun_settled hmeets hrun hasked with hidle' | ⟨r₀, hr₀, hcovers⟩
    · exact absurd hidle' hidle
    · exact ⟨r₀, hr₀, hcovers.1.trans hlink⟩

theorem loggedRun_installable (hmeets : CallsMeet env requests) {s : LoggedState env}
    (hrun : loggedRun env requests = some (s, true)) {r : Request env} (hr : Asked env requests r) (hidle : ¬Idle env r) :
    Installable r := by
  rcases loggedRun_settled hmeets hrun hr with hidle' | ⟨r₀, hr₀, hcovers⟩
  · exact absurd hidle' hidle
  · obtain ⟨-, -, hinst⟩ := (loggedRun_preserves hrun).1.asked r₀ hr₀
    intro link hlink
    exact hinst link (hcovers.1.trans hlink)

end Runs

/-! ## Permutations -/

def installRequests (env : Setup) (preferred : Option env.Feed) (names : List Text) : List (Request env) :=
  names.map fun name => ⟨preferred, name⟩

def feedsRun (env : Setup) (r : Option (InstallState × Bool)) : Option FeedsRun :=
  r.map fun r => ⟨firstIndex env, r.1, r.2⟩

theorem feedsRun_thenVisit (env : Setup) (r : Option (InstallState × Bool)) (q : Request env) :
    feedsRun env (thenVisit (installPackage env (firstIndex env)) r q) = feedsStep env (feedsRun env r) (.request q) := by
  cases r with
  | none => rfl
  | some r =>
    show feedsRun env ((installPackage env (firstIndex env) r.1 q).map _) =
      (installPackage env (firstIndex env) r.1 q).map _
    rw [feedsRun, Option.map_map]
    rfl

theorem runFeeds_requests (env : Setup) (requests : List (Request env)) :
    runFeeds env (requests.map .request) = feedsRun env (unlogged (loggedRun env requests)) := by
  have hlog : unlogged (loggedRun env requests) = _ :=
    runSteps_hom (unlogged_thenVisit (explore_logged (visitPackage env (firstIndex env)) (installFuel env))) _ requests
  have hfeeds := @runSteps_hom _ _ _ _ (feedsRun env) (fun r q => feedsStep env r (.request q)) (feedsRun_thenVisit env)
    (some (getInstalled env, true)) requests
  rw [hlog]
  refine Eq.trans ?_ hfeeds.symm
  rw [runFeeds, runSteps, runSteps, List.foldl_map]
  rfl

theorem runFeeds_returns (env : Setup) (events : List (FeedsEvent env)) : ∃ run, runFeeds env events = some run := by
  refine run_preserves (fun r => ∃ run, r = some run) events ?_ ⟨_, rfl⟩
  rintro _ e ⟨run, rfl⟩
  cases e with
  | index f => exact ⟨_, rfl⟩
  | request r =>
    obtain ⟨res, hres⟩ := installPackage_returns env run.index run.state r
    exact ⟨_, congrArg (Option.map _) hres⟩

theorem loggedRun_returns (env : Setup) (requests : List (Request env)) : ∃ res, loggedRun env requests = some res := by
  obtain ⟨run, hrun⟩ := runFeeds_returns env (requests.map .request)
  rw [runFeeds_requests] at hrun
  cases hlogged : loggedRun env requests with
  | none =>
    rw [hlogged] at hrun
    cases hrun
  | some res => exact ⟨res, rfl⟩

/-- Every list of calls returns. Two lists with the same names link the same directories, and return 0 both or
not, when all calls of both skip only what there is nothing to do for or what was linked before. -/
theorem install_order_irrelevant (env : Setup) (preferred : Option env.Feed) (names names' : List Text)
    (hperm : names.Perm names') :
    ∃ run run', runFeeds env ((installRequests env preferred names).map .request) = some run ∧
      runFeeds env ((installRequests env preferred names').map .request) = some run' ∧
      (CallsMeet env (installRequests env preferred names) → CallsMeet env (installRequests env preferred names') →
        run.ok → run'.ok ∧ ∀ link, link ∈ run.state.links ↔ link ∈ run'.state.links) := by
  have hperm' : (installRequests env preferred names).Perm (installRequests env preferred names') := hperm.map _
  obtain ⟨⟨s, ok⟩, hrun⟩ := loggedRun_returns env (installRequests env preferred names)
  obtain ⟨⟨s', ok'⟩, hrun'⟩ := loggedRun_returns env (installRequests env preferred names')
  refine ⟨⟨firstIndex env, s.1, ok⟩, ⟨firstIndex env, s'.1, ok'⟩, ?_, ?_, ?_⟩
  · rw [runFeeds_requests, hrun]
    rfl
  · rw [runFeeds_requests, hrun']
    rfl
  intro hmeets hmeets' hok
  obtain rfl : ok = true := hok
  have hok' : ok' = true := by
    rcases (loggedRun_preserves hrun').2 with hok' | ⟨r, hasked, hidle, hinst⟩
    · exact hok'
    · exact absurd (loggedRun_installable hmeets hrun (hasked.of_perm hperm'.symm) hidle) hinst
  subst hok'
  refine ⟨rfl, fun link => ?_⟩
  rw [loggedRun_links hmeets hrun, loggedRun_links hmeets' hrun']
  refine exists_congr fun r => and_congr_left fun _ => ?_
  exact ⟨fun h => h.of_perm hperm', fun h => h.of_perm hperm'.symm⟩


section Decidable
variable (env : Setup)

instance Request.decidableEq : DecidableEq (Request env)
  | ⟨preferred, name⟩, ⟨preferred', name'⟩ =>
    decidable_of_iff (preferred = preferred' ∧ name = name') (by rw [Request.mk.injEq])

instance Covers.decidable (r₀ r : Request env) : Decidable (Covers env r₀ r) :=
  inferInstanceAs (Decidable (_ = _ ∧ ∀ r' ∈ dependencyRequests env r, r' ∈ dependencyRequests env r₀))

instance SkipsOnlyLinked.decidable (s : LoggedState env) (r : Request env) : Decidable (SkipsOnlyLinked env s r) :=
  inferInstanceAs (Decidable (Skips env s.1 r → Idle env r ∨ ∃ r₀ ∈ s.2, Covers env r₀ r))

instance LoggedMeets.decidable (s : LoggedState env) (r : Request env) : Decidable (LoggedMeets env s r) :=
  inferInstanceAs (Decidable (Meets _ _ _ _ _ _))

instance CallsMeet.decidable (requests : List (Request env)) : Decidable (CallsMeet env requests) :=
  inferInstanceAs (Decidable (Along _
    (fun (run : Option (LoggedState env × Bool)) r => ∀ s ∈ run, LoggedMeets env s.1 r) _ _))

end Decidable

/-- Two packages that lead to each other, in both orders. -/
theorem install_order_irrelevant_two_feeds :
    (CallsMeet twoFeeds (installRequests twoFeeds none ["p".toList, "r".toList]) ∧
      CallsMeet twoFeeds (installRequests twoFeeds none ["r".toList, "p".toList])) ∧
    ∃ run run', runFeeds twoFeeds ((installRequests twoFeeds none ["p".toList, "r".toList]).map .request) = some run ∧
      runFeeds twoFeeds ((installRequests twoFeeds none ["r".toList, "p".toList]).map .request) = some run' ∧
      (run.ok → run'.ok ∧ ∀ link, link ∈ run.state.links ↔ link ∈ run'.state.links) := by
  have hmeets : CallsMeet twoFeeds (installRequests twoFeeds none ["p".toList, "r".toList]) := by decide
  have hmeets' : CallsMeet twoFeeds (installRequests twoFeeds none ["r".toList, "p".toList]) := by decide
  obtain ⟨run, run', hrun, hrun', hsame⟩ :=
    install_order_irrelevant twoFeeds none ["p".toList, "r".toList] ["r".toList, "p".toList] (List.Perm.swap _ _ _)
  exact ⟨⟨hmeets, hmeets'⟩, run, run', hrun, hrun', hsame hmeets hmeets'⟩

/-- A source has the name of a package that is built from another one. -/
def sharedName : Setup where
  feeds :=
    [⟨"src-svn".toList, "a".toList, some [⟨[], "s".toList, [⟨"p".toList, [], [], [], []⟩]⟩,
      ⟨[], "t".toList, [⟨"s".toList, [], [], [], []⟩]⟩]⟩]
  tree := []

/-- The package is skipped when the source of its name was linked before. -/
theorem shared_name_order_matters :
    ∃ run ∈ runFeeds sharedName ((installRequests sharedName none ["p".toList, "s".toList]).map .request),
      ∃ run' ∈ runFeeds sharedName ((installRequests sharedName none ["s".toList, "p".toList]).map .request),
        run.ok ∧ run'.ok ∧ run.state.links.map Link.src = ["s".toList] ∧
          run'.state.links.map Link.src = ["s".toList, "t".toList] := by
  decide

end Neufbox.Packages
