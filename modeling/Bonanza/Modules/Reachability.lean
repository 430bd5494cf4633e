import Bonanza.Modules.BuildList

/-! # Modules reachable from the root

Which modules `ComputeModuleRoughBuildListValue` is meant to visit, and when it is meant to fail.
Only the root module is followed with its dev dependencies, unless those are ignored. Dependencies
on modules with an override lead to what the override provides.

`Explored.run` shows that the loop over modules terminates if the registry is finite, and that the
build list then holds the reachable modules that have no override.
-/

namespace Bonanza.Modules

open List AssocList Label State Set BazelDep

section

variable (env : Environment)

/-! ## Obtaining files -/

/-- A registry has no vendored copy of the file of a module. -/
def Unvendored (module : ModuleToCheck) (registryUrl : Text) : Prop :=
  env.readVendoredFile registryUrl module = .noMirror ∨
    env.readVendoredFile registryUrl module = .unverified

/-- The file of a module cannot be obtained. -/
inductive Absent (module : ModuleToCheck) : Prop where
  /-- The first registry that vendors the file no longer has it. -/
  | mirror {before after : List Text} {registryUrl : Text}
      (plain : lookup env.modulesWithOverrides module.name = none)
      (registryUrls : env.registryUrls = before ++ registryUrl :: after)
      (skipped : ∀ url ∈ before, Unvendored env module url)
      (lost : env.readVendoredFile registryUrl module = .absent ∨
        ∃ message, env.readVendoredFile registryUrl module = .failed message)
  /-- No registry has the file. -/
  | everywhere
      (plain : lookup env.modulesWithOverrides module.name = none)
      (skipped : ∀ url ∈ env.registryUrls, Unvendored env module url)
      (lost : ∀ url ∈ env.registryUrls, env.getHTTPFileContentsValue url module = some none)

/-- The file of a module is available, and gives it an entry in the build list. -/
def Provides (module : ModuleToCheck) (file : ModuleFile) (entry : Option BuildListModule) : Prop :=
  locate env module = .ok (.found file entry)

/-- The `bazel_dep()` calls followed. -/
def followed (ignoreDevDependencies : Bool) (calls : List Call) : List BazelDep :=
  calls.filterMap fun
    | .bazelDep dep => if !dep.devDependency || !ignoreDevDependencies then some dep else none
    | _ => none

variable (ignoreDevDependencies : Bool)

/-- The file of a module has a `bazel_dep()` call that is followed. -/
def Declares (module : ModuleToCheck) (dep : BazelDep) : Prop :=
  ∃ calls entry, Provides env module (.ok calls) entry ∧ dep ∈ followed ignoreDevDependencies calls

/-! ## Following dependencies -/

/-- The module to which a dependency leads. -/
inductive Redirects (dep : BazelDep) : ModuleToCheck → Prop where
  /-- Without an override, it is the requested version. -/
  | exact {version : ModuleVersion}
      (plain : lookup env.modulesWithOverrides dep.name = none)
      (requested : dep.version = some version) :
      Redirects dep ⟨dep.name, version⟩
  /-- An override without versions provides a single module. -/
  | overridden
      (override : lookup env.modulesWithOverrides dep.name = some []) :
      Redirects dep ⟨dep.name, ⟨[]⟩⟩
  /-- An override with versions provides the first one that is not below the requested one. -/
  | nearest {versions : OverrideVersions} {version provided : ModuleVersion}
      (override : lookup env.modulesWithOverrides dep.name = some versions)
      (requested : dep.version = some version)
      (first : versions.find? (fun v => v.compare version ≥ 0) = some provided) :
      Redirects dep ⟨dep.name, provided⟩

/-- The dependency leads nowhere. -/
inductive Unresolvable (dep : BazelDep) : Prop where
  | lacksVersion
      (plain : lookup env.modulesWithOverrides dep.name = none)
      (unspecified : dep.version = none)
  | exceeds {versions : OverrideVersions} {version : ModuleVersion}
      (override : lookup env.modulesWithOverrides dep.name = some versions)
      (listed : versions ≠ [])
      (requested : dep.version = some version)
      (above : ∀ v ∈ versions, v.compare version < 0)
  | lacksVersionForOverride {versions : OverrideVersions}
      (override : lookup env.modulesWithOverrides dep.name = some versions)
      (listed : versions ≠ [])
      (unspecified : dep.version = none)

/-- A module leads to another one. -/
def Depends (module target : ModuleToCheck) : Prop :=
  ∃ dep, Declares env ignoreDevDependencies module dep ∧ Redirects env dep target

/-- The module at which traversal starts. -/
def rootModule : ModuleToCheck :=
  ⟨env.rootModuleName, ⟨['0']⟩⟩

/-- The modules reachable from the root, and whether their dev dependencies are ignored. -/
inductive Visits : (ignoreDevDependencies : Bool) → ModuleToCheck → Prop where
  | root : Visits env.ignoreRootModuleDevDependencies (rootModule env)
  | dependency {ignoreDevDependencies : Bool} {module target : ModuleToCheck}
      (visits : Visits ignoreDevDependencies module)
      (depends : Depends env ignoreDevDependencies module target) :
      Visits true target

/-- A module cannot be processed. -/
inductive FailsAt (module : ModuleToCheck) : Prop where
  | absent (absent : Absent env module)
  | malformed {message : String} {entry : Option BuildListModule}
      (provides : Provides env module (.error message) entry)
  | repeated {calls : List Call} {entry : Option BuildListModule}
      (provides : Provides env module (.ok calls) entry)
      (repeats : ¬((followed ignoreDevDependencies calls).map BazelDep.name).Nodup)
  | unresolvable {dep : BazelDep} (declares : Declares env ignoreDevDependencies module dep)
      (unresolvable : Unresolvable env dep)

/-- There are finitely many modules in the registry. -/
def FiniteRegistry : Prop :=
  {module : ModuleToCheck | lookup env.modulesWithOverrides module.name = none ∧
    ∃ file entry, Provides env module file entry}.Finite

/-- The versions of overrides are listed in ascending order. -/
def Ascending : Prop :=
  ∀ name versions, AssocList.lookup env.modulesWithOverrides name = some versions →
    versions.Pairwise fun a b => a.compare b ≤ 0

/-- The versions of the override of a module that are not below the requested one come last. -/
def Partitioned (dep : BazelDep) : Prop :=
  ∀ versions version, AssocList.lookup env.modulesWithOverrides dep.name = some versions →
    dep.version = some version →
    versions.Pairwise fun a b => a.compare version ≥ 0 → b.compare version ≥ 0

/-- Versions of overrides are only looked up in lists that are partitioned. -/
def Searchable : Prop :=
  ∀ ignoreDevDependencies module dep, Visits env ignoreDevDependencies module →
    Declares env ignoreDevDependencies module dep → Partitioned env dep

end

variable {env : Environment} {module target : ModuleToCheck} {ignoreDevDependencies : Bool}
  {dependencies : List (Text × Option ModuleVersion)} {dep : BazelDep} {calls : List Call}
  {state : State} {done : List ModuleToCheck} {entry : Option BuildListModule}

/-! ## Obtaining files -/

section

variable (lax : env.strictVendorMode = false)

include lax

theorem locateVendored_append {before : List Text}
    (skipped : ∀ url ∈ before, Unvendored env module url) (registryUrls : List Text) :
    locateVendored env module (before ++ registryUrls) =
      locateVendored env module registryUrls := by
  induction before with
  | nil => rfl
  | cons url before ih =>
    have rest := ih (forall_mem_cons.mp skipped).2
    rcases skipped url mem_cons_self with none | unverified
    · simp [locateVendored, none, lax, rest]
    · simp [locateVendored, unverified, rest]

omit lax in
theorem unvendored_or_exists_vendored (registryUrls : List Text) :
    (∀ url ∈ registryUrls, Unvendored env module url) ∨ ∃ before registryUrl after,
      registryUrls = before ++ registryUrl :: after ∧
      (∀ url ∈ before, Unvendored env module url) ∧ ¬Unvendored env module registryUrl := by
  induction registryUrls with
  | nil => exact .inl nofun
  | cons url registryUrls ih =>
    by_cases unvendored : Unvendored env module url
    · rcases ih with all | ⟨before, registryUrl, after, rfl, skipped, vendored⟩
      · exact .inl (forall_mem_cons.mpr ⟨unvendored, all⟩)
      · exact .inr ⟨url :: before, registryUrl, after, rfl,
          forall_mem_cons.mpr ⟨unvendored, skipped⟩, vendored⟩
    · exact .inr ⟨[], url, registryUrls, rfl, nofun, unvendored⟩

theorem locateVendored_spec (module : ModuleToCheck) (registryUrls : List Text) :
    match locateVendored env module registryUrls with
    | .error error => error ≠ .limitExceeded ∧ ∃ before registryUrl after,
        registryUrls = before ++ registryUrl :: after ∧
        (∀ url ∈ before, Unvendored env module url) ∧
        (env.readVendoredFile registryUrl module = .absent ∨
          ∃ message, env.readVendoredFile registryUrl module = .failed message)
    | .ok none => ∀ url ∈ registryUrls, Unvendored env module url
    | .ok (some located) => ∃ file registryUrl,
        located = .found file (some ⟨module.name, module.version, registryUrl⟩) := by
  rcases unvendored_or_exists_vendored registryUrls with
    all | ⟨before, registryUrl, after, rfl, skipped, vendored⟩
  · have none := locateVendored_append lax all []
    rw [append_nil] at none
    rw [none]
    exact all
  · rw [locateVendored_append lax skipped]
    cases read : env.readVendoredFile registryUrl module with
        simp only [locateVendored, read]
    | noMirror => exact absurd (.inl read) vendored
    | unverified => exact absurd (.inr read) vendored
    | failed message =>
      exact ⟨nofun, before, registryUrl, after, rfl, skipped, .inr ⟨message, read⟩⟩
    | absent =>
      exact ⟨nofun, before, registryUrl, after, rfl, skipped, .inl read⟩
    | present file =>
      exact ⟨file, registryUrl, rfl⟩

omit lax in
/-- The loop over registries fails if none of them have the file. -/
theorem locateHTTP_spec (env : Environment) (module : ModuleToCheck) (registryUrls : List Text) :
    match locateHTTP env module registryUrls with
    | .error error => error ≠ .limitExceeded ∧
        ∀ url ∈ registryUrls, env.getHTTPFileContentsValue url module = some none
    | .ok .missing => True
    | .ok (.found _ entry) =>
      ∃ registryUrl, entry = some ⟨module.name, module.version, registryUrl⟩ := by
  induction registryUrls with
  | nil => simp [locateHTTP]
  | cons url registryUrls ih =>
    simp only [locateHTTP]
    cases contents : env.getHTTPFileContentsValue url module with
    | none => trivial
    | some contents? =>
      cases contents? with
      | some file => exact ⟨url, rfl⟩
      | none => simpa only [forall_mem_cons, contents, true_and] using ih

omit lax in
theorem locateHTTP_of_lost {registryUrls : List Text}
    (lost : ∀ url ∈ registryUrls, env.getHTTPFileContentsValue url module = some none) :
    ∃ error, locateHTTP env module registryUrls = .error error := by
  induction registryUrls with
  | nil => exact ⟨_, rfl⟩
  | cons url registryUrls ih =>
    rw [locateHTTP, lost url mem_cons_self]
    exact ih (forall_mem_cons.mp lost).2

theorem Absent.locate_eq (absent : Absent env module) :
    ∃ error, locate env module = .error error := by
  cases absent with
  | mirror plain urls skipped lost =>
    have locates := locateVendored_append lax skipped
    rcases lost with lost | ⟨message, lost⟩
    · simp [locate, plain, urls, locates, locateVendored, lost, bind, Except.bind]
    · simp [locate, plain, urls, locates, locateVendored, lost, bind, Except.bind]
  | everywhere plain skipped lost =>
    have locates := locateVendored_append lax skipped []
    rw [append_nil] at locates
    simpa [locate, plain, locates, locateVendored, lax, bind, Except.bind] using
      locateHTTP_of_lost lost

variable {entry : Option BuildListModule} {file : ModuleFile}

theorem locate_of_plain (plain : lookup env.modulesWithOverrides module.name = none) :
    match locate env module with
    | .error error => error ≠ .limitExceeded ∧ Absent env module
    | .ok .missing => True
    | .ok (.found _ entry) =>
      ∃ registryUrl, entry = some ⟨module.name, module.version, registryUrl⟩ := by
  have vendored := locateVendored_spec lax module env.registryUrls
  have registries := locateHTTP_spec env module env.registryUrls
  cases locates : locateVendored env module env.registryUrls with
      rw [locates] at vendored
  | error error =>
    obtain ⟨limit, before, registryUrl, after, urls, skipped, lost⟩ := vendored
    have eq : locate env module = .error error := by
      simp [locate, plain, locates, bind, Except.bind]
    rw [eq]
    exact ⟨limit, .mirror plain urls skipped lost⟩
  | ok located? =>
    cases located? with
    | some located =>
      obtain ⟨file, registryUrl, rfl⟩ := vendored
      have eq : locate env module = .ok (.found file
          (some ⟨module.name, module.version, registryUrl⟩)) := by
        simp [locate, plain, locates, bind, Except.bind, pure, Except.pure]
      rw [eq]
      exact ⟨registryUrl, rfl⟩
    | none =>
      have eq : locate env module = locateHTTP env module env.registryUrls := by
        simp [locate, plain, locates, lax, bind, Except.bind]
      rw [eq]
      cases downloads : locateHTTP env module env.registryUrls with
          rw [downloads] at registries
      | error error =>
        exact ⟨registries.1, .everywhere plain vendored registries.2⟩
      | ok located =>
        cases located with
        | missing => trivial
        | found file entry => exact registries

omit lax in
theorem locate_of_overridden
    (overridden : lookup env.modulesWithOverrides module.name ≠ none) :
    locate env module = .ok .missing ∨ ∃ file, locate env module = .ok (.found file none) := by
  obtain ⟨versions, override⟩ := Option.ne_none_iff_exists'.mp overridden
  simp only [locate, override]
  cases env.getModuleDotBazelContentsValue
      (toModuleInstance module.name (if versions.length > 1 then some module.version else none))
    with
  | none => exact .inl rfl
  | some file => exact .inr ⟨file, rfl⟩

/-- A module that cannot be located is absent. -/
theorem locate_error {error : BuildListError} (fails : locate env module = .error error) :
    error ≠ .limitExceeded ∧ Absent env module := by
  by_cases plain : lookup env.modulesWithOverrides module.name = none
  · have spec := locate_of_plain lax plain
    rwa [fails] at spec
  · rcases locate_of_overridden plain with missing | ⟨file, found⟩
    · exact absurd (fails.symm.trans missing) nofun
    · exact absurd (fails.symm.trans found) nofun

theorem Provides.not_absent (provides : Provides env module file entry) : ¬Absent env module := by
  intro absent
  obtain ⟨error, fails⟩ := absent.locate_eq lax
  exact absurd (provides.symm.trans fails) nofun

theorem Provides.entry_of_plain (provides : Provides env module file entry)
    (plain : lookup env.modulesWithOverrides module.name = none) :
    ∃ registryUrl, entry = some ⟨module.name, module.version, registryUrl⟩ := by
  have spec := locate_of_plain lax plain
  rwa [provides] at spec

omit lax in
theorem Provides.entry_of_overridden (provides : Provides env module file entry)
    (overridden : lookup env.modulesWithOverrides module.name ≠ none) :
    entry = none := by
  rcases locate_of_overridden overridden with missing | ⟨file, found⟩
  · exact absurd (provides.symm.trans missing) nofun
  · have same := provides.symm.trans found
    simp only [Except.ok.injEq, Located.found.injEq] at same
    exact same.2

end

/-! ## Capturing dependencies -/

/-- The dependencies that are followed are captured, unless one is repeated. -/
theorem captureDependencies_spec (ignoreDevDependencies : Bool) (calls : List Call)
    (unique : (dependencies.map Prod.fst).Nodup) :
    match captureDependencies ignoreDevDependencies calls dependencies with
    | .error error => error ≠ .limitExceeded ∧
        ¬((followed ignoreDevDependencies calls).map name ++ dependencies.map Prod.fst).Nodup
    | .ok captured =>
      ((followed ignoreDevDependencies calls).map name ++ dependencies.map Prod.fst).Nodup ∧
      ∀ entry, entry ∈ captured ↔ entry ∈ dependencies ∨
        ∃ dep ∈ followed ignoreDevDependencies calls, entry = (dep.name, dep.version) := by
  induction calls generalizing dependencies with
  | nil => exact ⟨unique, fun entry => by simp [followed]⟩
  | cons call calls ih =>
    cases call with
    | bazelDep dep =>
      by_cases follows : (!dep.devDependency || !ignoreDevDependencies) = true
      · have followed_eq : followed ignoreDevDependencies (.bazelDep dep :: calls) =
            dep :: followed ignoreDevDependencies calls := by
          simp only [followed, filterMap_cons, if_pos follows]
        rw [captureDependencies, if_pos follows, followed_eq]
        cases present : lookup dependencies dep.name with
        | some version =>
          refine ⟨nofun, fun distinct => ?_⟩
          have member := mem_map_of_mem (f := Prod.fst) (mem_of_lookup present)
          rw [map_cons, cons_append, nodup_cons] at distinct
          exact distinct.1 (mem_append_right _ member)
        | none =>
          have distinct : ((insert dependencies dep.name dep.version).map
              Prod.fst).Nodup := nodup_insert unique
          have rest := ih distinct
          rw [insert_eq_cons present, map_cons, perm_middle.nodup_iff]
            at rest
          rw [insert_eq_cons present]
          simpa only [map_cons, cons_append, mem_cons, or_and_right, exists_or,
            exists_eq_left, or_assoc, or_left_comm] using rest
      · have followed_eq : followed ignoreDevDependencies (.bazelDep dep :: calls) =
            followed ignoreDevDependencies calls := by
          simp only [followed, filterMap_cons, if_neg follows]
        rw [captureDependencies, if_neg follows, followed_eq]
        exact ih unique
    | module repoName => exact ih unique
    | useRepo bzlFile name repos dev => exact ih unique
    | repoRule name dev => exact ih unique
    | other => exact ih unique

/-! ## Resolving dependencies -/

theorem Ascending.searchable (ascending : Ascending env) : Searchable env := by
  intro _ _ dep _ _ versions version override _
  refine (ascending _ _ override).imp fun {a b} le holds => ?_
  rw [ge_iff_le, ModuleVersion.zero_le_compare_iff] at holds ⊢
  rw [← not_lt, ModuleVersion.zero_lt_compare_iff, not_lt] at le
  exact holds.trans le

theorem lookupNearestVersion_eq {versions : OverrideVersions} {version : ModuleVersion}
    (partitioned : versions.Pairwise fun a b =>
      a.compare version ≥ 0 → b.compare version ≥ 0) :
    OverrideVersions.lookupNearestVersion versions (some version) =
      match versions.find? (fun v => v.compare version ≥ 0) with
      | none => .error (.exceedsMaximum version versions.getLast?)
      | some v => .ok v := by
  have monotone : versions.Pairwise fun a b =>
      decide (a.compare version ≥ 0) = true → decide (b.compare version ≥ 0) = true := by
    refine partitioned.imp fun {a b} keeps holds => ?_
    rw [decide_eq_true_iff] at holds ⊢
    exact keeps holds
  have search_eq := BinarySearch.getElem?_search_eq_find? monotone
  cases found : versions.find? (fun v => v.compare version ≥ 0) with
  | none => simp only [OverrideVersions.lookupNearestVersion, search_eq, found]
  | some v => simp only [OverrideVersions.lookupNearestVersion, search_eq, found]

/-- The module to which a dependency leads, if any. -/
def destination (env : Environment) (dep : BazelDep) : Option ModuleToCheck :=
  match lookup env.modulesWithOverrides dep.name, dep.version with
  | none, version => version.map (⟨dep.name, ·⟩)
  | some [], _ => some ⟨dep.name, ⟨[]⟩⟩
  | some (_ :: _), none => none
  | some (first :: rest), some version =>
    ((first :: rest).find? (fun v => v.compare version ≥ 0)).map (⟨dep.name, ·⟩)

theorem Redirects.destination_eq (redirects : Redirects env dep target) :
    destination env dep = some target := by
  cases redirects with
  | exact plain requested => simp [destination, plain, requested]
  | overridden override => simp [destination, override]
  | @nearest versions _ _ override requested first =>
    cases versions with
    | nil => cases first
    | cons => simp [destination, override, requested, first]

theorem Unresolvable.destination_eq (unresolvable : Unresolvable env dep) :
    destination env dep = none := by
  cases unresolvable with
  | lacksVersion plain unspecified => simp [destination, plain, unspecified]
  | @exceeds versions _ override listed requested above =>
    cases versions with
    | nil => exact absurd rfl listed
    | cons => simpa [destination, override, requested] using above
  | @lacksVersionForOverride versions override listed unspecified =>
    cases versions with
    | nil => exact absurd rfl listed
    | cons => simp [destination, override, unspecified]

theorem Redirects.unique {other : ModuleToCheck} (first : Redirects env dep target)
    (second : Redirects env dep other) : target = other :=
  Option.some.inj (first.destination_eq.symm.trans second.destination_eq)

theorem Redirects.not_unresolvable (redirects : Redirects env dep target) :
    ¬Unresolvable env dep := fun unresolvable =>
  Option.some_ne_none _ (redirects.destination_eq.symm.trans unresolvable.destination_eq)

/-- Dependencies lead to where they should, or nowhere. -/
theorem resolveDependency_spec (partitioned : Partitioned env dep) (name : Text) :
    match resolveDependency env name (dep.name, dep.version) with
    | .error error => error ≠ .limitExceeded ∧ Unresolvable env dep
    | .ok target => Redirects env dep target := by
  rw [resolveDependency]
  cases override : lookup env.modulesWithOverrides dep.name with
  | none =>
    cases requested : dep.version with
    | none => exact ⟨nofun, .lacksVersion override requested⟩
    | some version => exact .exact override requested
  | some versions =>
    cases versions with
    | nil => exact .overridden override
    | cons first versions =>
      simp only [length_cons, Nat.zero_lt_succ, gt_iff_lt, if_true]
      cases requested : dep.version with
      | none => exact ⟨nofun, .lacksVersionForOverride override (cons_ne_nil _ _) requested⟩
      | some version =>
        rw [lookupNearestVersion_eq (partitioned _ _ override requested)]
        cases found : (first :: versions).find? (fun v => v.compare version ≥ 0) with
        | none =>
          refine ⟨nofun, .exceeds override (cons_ne_nil _ _) requested ?_⟩
          intro v member
          simpa using find?_eq_none.mp found v member
        | some provided => exact .nearest override requested found

/-! ## The loop over modules -/

/-- A state in which more modules have been seen, which need to be checked. -/
def State.queueAll (state : State) (fresh : List ModuleToCheck) : State :=
  { state with
    modulesSeen := fresh.reverse ++ state.modulesSeen
    modulesToCheck := state.modulesToCheck ++ fresh }

theorem State.queueAll_nil (state : State) : state.queueAll [] = state := by
  simp [queueAll]

theorem queueDependencies_spec (env : Environment) (name : Text)
    (dependencies : List (Text × Option ModuleVersion)) (state : State) :
    match queueDependencies env name dependencies state with
    | .error error => ∃ dependency ∈ dependencies,
        resolveDependency env name dependency = .error error
    | .ok queued => ∃ fresh, queued = state.queueAll fresh ∧ fresh.Nodup ∧
        (∀ target ∈ fresh, target ∉ state.modulesSeen) ∧
        (∀ target ∈ fresh, ∃ dependency ∈ dependencies,
          resolveDependency env name dependency = .ok target) ∧
        ∀ dependency ∈ dependencies, ∃ target,
          resolveDependency env name dependency = .ok target ∧
            target ∈ fresh.reverse ++ state.modulesSeen := by
  induction dependencies generalizing state with
  | nil => exact ⟨[], state.queueAll_nil.symm, nodup_nil, nofun, nofun, nofun⟩
  | cons dependency dependencies ih =>
    simp only [queueDependencies]
    cases resolves : resolveDependency env name dependency with
    | error error => exact ⟨dependency, mem_cons_self, resolves⟩
    | ok target =>
      have rest := ih (state.queue target)
      change match queueDependencies env name dependencies (state.queue target) with
        | .error error => _
        | .ok queued => _
      cases queues : queueDependencies env name dependencies (state.queue target) with
          rw [queues] at rest
      | error error =>
        obtain ⟨other, member, fails⟩ := rest
        exact ⟨other, mem_cons_of_mem _ member, fails⟩
      | ok queued =>
        obtain ⟨fresh, rfl, distinct, unseen, origin, complete⟩ := rest
        by_cases seen : target ∈ state.modulesSeen
        · rw [queue, if_pos seen] at unseen complete ⊢
          refine ⟨fresh, rfl, distinct, unseen, fun other member => ?_, ?_⟩
          · obtain ⟨origin, member, resolves⟩ := origin other member
            exact ⟨origin, mem_cons_of_mem _ member, resolves⟩
          · exact forall_mem_cons.mpr ⟨⟨target, resolves, mem_append_right _ seen⟩, complete⟩
        · rw [queue, if_neg seen] at unseen complete ⊢
          simp only [mem_cons, not_or] at unseen
          refine ⟨target :: fresh, by simp [queueAll], ?_, ?_, ?_, ?_⟩
          · exact nodup_cons.mpr ⟨fun member => (unseen target member).1 rfl, distinct⟩
          · exact forall_mem_cons.mpr ⟨seen, fun other member => (unseen other member).2⟩
          · refine forall_mem_cons.mpr
              ⟨⟨dependency, mem_cons_self, resolves⟩, fun other member => ?_⟩
            obtain ⟨origin, member, resolves⟩ := origin other member
            exact ⟨origin, mem_cons_of_mem _ member, resolves⟩
          · simp only [reverse_cons, append_assoc, singleton_append]
            exact forall_mem_cons.mpr ⟨⟨target, resolves,
              mem_append_right _ mem_cons_self⟩, complete⟩

theorem Provides.declares_iff (provides : Provides env module (.ok calls) entry) :
    Declares env ignoreDevDependencies module dep ↔ dep ∈ followed ignoreDevDependencies calls := by
  constructor
  · rintro ⟨calls', entry', provides', member⟩
    have same := provides.symm.trans provides'
    simp only [Except.ok.injEq, Located.found.injEq] at same
    rwa [same.1]
  · exact fun member => ⟨calls, entry, provides, member⟩

theorem Provides.not_failsAt (lax : env.strictVendorMode = false)
    (provides : Provides env module (.ok calls) entry)
    (distinct : ((followed ignoreDevDependencies calls).map name).Nodup)
    (resolves : ∀ dep ∈ followed ignoreDevDependencies calls, ¬Unresolvable env dep) :
    ¬FailsAt env ignoreDevDependencies module := by
  intro fails
  cases fails with
  | absent absent => exact provides.not_absent lax absent
  | malformed malformed => exact absurd (provides.symm.trans malformed) (by simp)
  | repeated provides' repeats =>
    have same := provides.symm.trans provides'
    simp only [Except.ok.injEq, Located.found.injEq] at same
    exact repeats (same.1 ▸ distinct)
  | unresolvable declares unresolvable =>
    exact resolves _ (provides.declares_iff.mp declares) unresolvable

/-- The entries that a module gets in the build list. -/
def entries (env : Environment) (module : ModuleToCheck) : List BuildListModule :=
  match locate env module with
  | .ok (.found _ entry) => entry.toList
  | _ => []

section

variable (lax : env.strictVendorMode = false)

include lax

/-- Once the dependencies of a module are captured, processing it can only fail if one of them leads
nowhere. -/
theorem queueDependencies_of_provides {calls : List Call} {entry : Option BuildListModule}
    (provides : Provides env module (.ok calls) entry)
    (distinct : ((followed ignoreDevDependencies calls).map name).Nodup)
    {dependencies : List (Text × Option ModuleVersion)}
    (captures : ∀ dependency, dependency ∈ dependencies ↔
      ∃ dep ∈ followed ignoreDevDependencies calls, dependency = (dep.name, dep.version))
    (partitioned : ∀ dep, Declares env ignoreDevDependencies module dep → Partitioned env dep)
    {state : State} :
    match queueDependencies env module.name dependencies state with
    | .error error => error ≠ .limitExceeded ∧ FailsAt env ignoreDevDependencies module
    | .ok queued => ¬FailsAt env ignoreDevDependencies module ∧ ∃ fresh,
        queued = state.queueAll fresh ∧
        fresh.Nodup ∧ (∀ target ∈ fresh, target ∉ state.modulesSeen) ∧
        (∀ target ∈ fresh, Depends env ignoreDevDependencies module target) ∧
        ∀ target, Depends env ignoreDevDependencies module target →
          target ∈ fresh.reverse ++ state.modulesSeen := by
  have resolved (dep : BazelDep) (follows : dep ∈ followed ignoreDevDependencies calls) :=
    resolveDependency_spec (partitioned dep (provides.declares_iff.mpr follows)) module.name
  have spec := queueDependencies_spec env module.name dependencies state
  cases queues : queueDependencies env module.name dependencies state with
      rw [queues] at spec
  | error error =>
    obtain ⟨dependency, member, fails⟩ := spec
    obtain ⟨dep, follows, rfl⟩ := (captures dependency).mp member
    have resolves := resolved dep follows
    rw [fails] at resolves
    exact ⟨resolves.1, .unresolvable (provides.declares_iff.mpr follows) resolves.2⟩
  | ok queued =>
    obtain ⟨fresh, rfl, nodup, unseen, origin, complete⟩ := spec
    -- Every dependency leads somewhere, where it has been seen.
    have leads : ∀ dep ∈ followed ignoreDevDependencies calls, ∃ target,
        Redirects env dep target ∧ target ∈ fresh.reverse ++ state.modulesSeen := by
      intro dep member
      obtain ⟨target, found, seen⟩ := complete _ ((captures _).mpr ⟨dep, member, rfl⟩)
      have resolves := resolved dep member
      rw [found] at resolves
      exact ⟨target, resolves, seen⟩
    refine ⟨fun fails => ?_, fresh, rfl, nodup, unseen, fun target member => ?_, ?_⟩
    · refine provides.not_failsAt lax distinct (fun dep member => ?_) fails
      obtain ⟨target, redirects, -⟩ := leads dep member
      exact redirects.not_unresolvable
    · obtain ⟨dependency, member, found⟩ := origin target member
      obtain ⟨dep, follows, rfl⟩ := (captures dependency).mp member
      have resolves := resolved dep follows
      rw [found] at resolves
      exact ⟨dep, provides.declares_iff.mpr follows, resolves⟩
    · rintro target ⟨dep, declares, redirects⟩
      obtain ⟨seen, redirects', member⟩ := leads dep (provides.declares_iff.mp declares)
      rwa [redirects.unique redirects']

variable {order : List (Text × Option ModuleVersion) → List (Text × Option ModuleVersion)}
  {reachable : Finset ModuleToCheck}

/-- Processing a module queues what it depends on. -/
theorem processModule_spec (permutes : ∀ dependencies, (order dependencies).Perm dependencies)
    (state : State) (available : locate env module ≠ .ok .missing)
    (partitioned : ∀ dep, Declares env state.ignoreDevDependencies module dep →
      Partitioned env dep) :
    match processModule env order state module with
    | .error error => error ≠ .limitExceeded ∧ FailsAt env state.ignoreDevDependencies module
    | .ok processed => ¬FailsAt env state.ignoreDevDependencies module ∧ ∃ fresh,
        processed = queueAll { state with
          ignoreDevDependencies := true
          buildList := state.buildList ++ entries env module } fresh ∧
        fresh.Nodup ∧ (∀ target ∈ fresh, target ∉ state.modulesSeen) ∧
        (∀ target ∈ fresh, Depends env state.ignoreDevDependencies module target) ∧
        ∀ target, Depends env state.ignoreDevDependencies module target →
          target ∈ fresh.reverse ++ state.modulesSeen := by
  rw [processModule]
  cases locates : locate env module with
  | error error =>
    obtain ⟨limit, absent⟩ := locate_error lax locates
    exact ⟨limit, .absent absent⟩
  | ok located =>
    cases located with
    | missing => exact absurd locates available
    | found file entry =>
      cases file with
      | error message => exact ⟨nofun, .malformed locates⟩
      | ok calls =>
        have unique : (([] : List (Text × Option ModuleVersion)).map Prod.fst).Nodup := nodup_nil
        have captures := captureDependencies_spec state.ignoreDevDependencies calls unique
        simp only [map_nil, append_nil] at captures
        cases captured : captureDependencies state.ignoreDevDependencies calls [] with
            rw [captured] at captures
        | error error =>
          simp only [captured]
          exact ⟨captures.1, .repeated locates captures.2⟩
        | ok dependencies =>
          simp only [captured, entries, locates]
          refine queueDependencies_of_provides lax locates captures.1 (fun dependency => ?_)
            partitioned
          simpa [(permutes dependencies).mem_iff] using captures.2 dependency

/-- Some modules have been processed without failing. With the queue, they are those seen. -/
structure Explored (env : Environment) (done : List ModuleToCheck) (state : State) : Prop where
  ignores : state.ignoreDevDependencies = true
  missing : state.missingDependencies = false
  nodup : state.modulesSeen.Nodup
  seen : state.modulesSeen.Perm (done ++ state.modulesToCheck)
  visits : ∀ module ∈ state.modulesSeen, Visits env true module
  root : ¬FailsAt env env.ignoreRootModuleDevDependencies (rootModule env) ∧
    ∀ target, Depends env env.ignoreRootModuleDevDependencies (rootModule env) target →
      target ∈ state.modulesSeen
  expanded : ∀ module ∈ done, ¬FailsAt env true module ∧
    ∀ target, Depends env true module target → target ∈ state.modulesSeen
  buildList : state.buildList = done.flatMap (entries env)

omit lax in
theorem Explored.length_le (contains : ∀ module, Visits env true module → module ∈ reachable)
    (explored : Explored env done state) :
    done.length + state.modulesToCheck.length ≤ reachable.card := by
  have subset : state.modulesSeen.toFinset ⊆ reachable :=
    fun module member => contains module (explored.visits module (mem_toFinset.mp member))
  have le := Finset.card_le_card subset
  rwa [toFinset_card_of_nodup explored.nodup, explored.seen.length_eq, length_append] at le

variable (available : ∀ ignoreDevDependencies module, Visits env ignoreDevDependencies module →
  locate env module ≠ .ok .missing) (searchable : Searchable env)

include available searchable

variable (permutes : ∀ dependencies, (order dependencies).Perm dependencies)

include permutes

/-- Processing the next module keeps the invariant. -/
theorem Explored.step {modulesToCheck : List ModuleToCheck} (explored : Explored env done state)
    (next : state.modulesToCheck = module :: modulesToCheck) :
    match processModule env order { state with modulesToCheck } module with
    | .error error => error ≠ .limitExceeded ∧ Visits env true module ∧ FailsAt env true module
    | .ok processed => Explored env (done ++ [module]) processed := by
  have member : module ∈ state.modulesSeen := by
    rw [explored.seen.mem_iff, next]
    exact mem_append_right _ mem_cons_self
  have visits := explored.visits module member
  have partitioned : ∀ dep, Declares env state.ignoreDevDependencies module dep →
      Partitioned env dep := by
    rw [explored.ignores]
    exact fun dep => searchable true module dep visits
  have spec := processModule_spec lax permutes { state with modulesToCheck }
    (available true module visits) partitioned
  cases processes : processModule env order { state with modulesToCheck } module with
      rw [processes] at spec
  | error error =>
    simp only [explored.ignores] at spec
    exact ⟨spec.1, visits, spec.2⟩
  | ok processed =>
    simp only [explored.ignores] at spec
    obtain ⟨succeeds, fresh, rfl, nodup, unseen, origin, complete⟩ := spec
    have keeps : ∀ other ∈ state.modulesSeen, other ∈ fresh.reverse ++ state.modulesSeen :=
      fun other seen => mem_append_right _ seen
    refine ⟨rfl, explored.missing, ?_, ?_, ?_, ⟨explored.root.1, fun target depends =>
      keeps target (explored.root.2 target depends)⟩, ?_, ?_⟩
    · refine nodup_append'.mpr ⟨nodup_reverse.mpr nodup, explored.nodup, ?_⟩
      exact fun other added => unseen other (mem_reverse.mp added)
    · have seen := explored.seen
      rw [next] at seen
      calc
        (fresh.reverse ++ state.modulesSeen).Perm (fresh ++ (done ++ module :: modulesToCheck)) :=
          (reverse_perm fresh).append seen
        List.Perm _ (done ++ module :: modulesToCheck ++ fresh) := perm_append_comm
        List.Perm _ (done ++ [module] ++ (modulesToCheck ++ fresh)) := by simp
    · intro other added
      rcases mem_append.mp added with added | seen
      · exact .dependency visits (origin other (mem_reverse.mp added))
      · exact explored.visits other seen
    · intro other processed
      rcases mem_append.mp processed with before | last
      · obtain ⟨succeeds, expands⟩ := explored.expanded other before
        exact ⟨succeeds, fun target depends => keeps target (expands target depends)⟩
      · rw [mem_singleton.mp last]
        exact ⟨succeeds, complete⟩
    · simp [queueAll, explored.buildList]

omit permutes in
/-- The loop ends with all modules processed, unless one of them cannot be. -/
theorem Explored.run {limit : Nat}
    {order : Nat → List (Text × Option ModuleVersion) → List (Text × Option ModuleVersion)}
    (permutes : ∀ index dependencies, (order index dependencies).Perm dependencies)
    (contains : ∀ module, Visits env true module → module ∈ reachable)
    (enough : reachable.card < limit + done.length) (explored : Explored env done state) :
    match processModules env order limit state with
    | .error error => error ≠ .limitExceeded ∧
        ∃ module, Visits env true module ∧ FailsAt env true module
    | .ok final => ∃ done, Explored env done final ∧ final.modulesToCheck = [] := by
  induction limit generalizing done state with
  | zero =>
    have bound := explored.length_le contains
    omega
  | succ limit ih =>
    rw [processModules]
    cases next : state.modulesToCheck with
    | nil => exact ⟨done, explored, next⟩
    | cons module modulesToCheck =>
      have step := explored.step lax available searchable (permutes limit) next
      cases processes : processModule env (order limit) { state with modulesToCheck } module with
          rw [processes] at step
      | error error =>
        simp only [processes]
        exact ⟨step.1, module, step.2⟩
      | ok processed =>
        simp only [processes]
        apply ih _ step
        simp only [length_append, length_singleton]
        omega

/-- Processing the root establishes the invariant. -/
theorem explored_of_root (overridden : lookup env.modulesWithOverrides env.rootModuleName ≠ none) :
    match processModule env order { initialState env with modulesToCheck := [] } (rootModule env)
    with
    | .error error => error ≠ .limitExceeded ∧
        FailsAt env env.ignoreRootModuleDevDependencies (rootModule env)
    | .ok processed => Explored env [] processed := by
  have spec := processModule_spec lax permutes
    { initialState env with modulesToCheck := [] } (available _ _ .root)
    fun dep => searchable _ _ dep .root
  cases processes : processModule env order { initialState env with modulesToCheck := [] }
    (rootModule env) with
      rw [processes] at spec
  | error error =>
    exact spec
  | ok processed =>
    obtain ⟨succeeds, fresh, rfl, nodup, unseen, origin, complete⟩ := spec
    have none : entries env (rootModule env) = [] := by
      have root : lookup env.modulesWithOverrides (rootModule env).name ≠ none := overridden
      rcases locate_of_overridden root with missing | ⟨file, found⟩
      · exact absurd missing (available _ _ .root)
      · simp [entries, found]
    refine ⟨rfl, rfl, ?_, ?_, ?_, ⟨succeeds, complete⟩, nofun, ?_⟩
    · simpa [queueAll, initialState] using nodup
    · simp [queueAll, initialState]
    · intro module member
      simp only [queueAll, initialState, append_nil, mem_reverse] at member
      exact .dependency .root (origin module member)
    · simp [queueAll, initialState, none]

end

/-- Once all modules have been processed, these are the reachable ones. -/
theorem Explored.mem_iff {done : List ModuleToCheck} {state : State}
    (explored : Explored env done state) (finished : state.modulesToCheck = []) :
    (∀ module ∈ done, Visits env true module) ∧ ∀ ignoreDevDependencies module,
      Visits env ignoreDevDependencies module →
        ignoreDevDependencies = env.ignoreRootModuleDevDependencies ∧ module = rootModule env ∨
          ignoreDevDependencies = true ∧ module ∈ done := by
  have seen := explored.seen
  rw [finished, append_nil] at seen
  constructor
  · exact fun module member => explored.visits module (seen.mem_iff.mpr member)
  · intro ignoreDevDependencies module visits
    induction visits with
    | root => exact .inl ⟨rfl, rfl⟩
    | dependency visits depends ih =>
      refine .inr ⟨rfl, seen.mem_iff.mp ?_⟩
      rcases ih with ⟨rfl, rfl⟩ | ⟨rfl, member⟩
      · exact explored.root.2 _ depends
      · exact (explored.expanded _ member).2 _ depends

/-! ## Finiteness -/

theorem finite_depends (env : Environment) (ignoreDevDependencies : Bool) (module : ModuleToCheck) :
    {target | Depends env ignoreDevDependencies module target}.Finite := by
  rcases eq_empty_or_nonempty {target | Depends env ignoreDevDependencies module target} with
    none | ⟨_, dep, ⟨calls, entry, provides, -⟩, -⟩
  · exact none ▸ finite_empty
  · refine ((finite_toSet (followed ignoreDevDependencies calls)).biUnion
      (t := fun dep => {target | Redirects env dep target}) fun dep _ => ?_).subset ?_
    · exact Set.Subsingleton.finite fun _ first _ second => first.unique second
    · rintro target ⟨dep, declares, redirects⟩
      exact mem_biUnion (provides.declares_iff.mp declares) redirects

/-- The modules that overrides provide. -/
def overrideModules (env : Environment) : List ModuleToCheck :=
  env.modulesWithOverrides.flatMap fun entry =>
    (⟨[]⟩ :: entry.2).map fun version => ⟨entry.1, version⟩

theorem Redirects.mem_overrideModules (redirects : Redirects env dep target)
    (overridden : lookup env.modulesWithOverrides target.name ≠ none) :
    target ∈ overrideModules env := by
  cases redirects with
  | exact plain => exact absurd plain overridden
  | overridden override =>
    refine mem_flatMap.mpr ⟨_, mem_of_lookup override, ?_⟩
    exact mem_map_of_mem mem_cons_self
  | nearest override _ first =>
    refine mem_flatMap.mpr ⟨_, mem_of_lookup override, ?_⟩
    exact mem_map_of_mem (mem_cons_of_mem _ (mem_of_find?_eq_some first))

theorem Visits.eq_root_or (visits : Visits env ignoreDevDependencies module) :
    module = rootModule env ∨ ∃ ignoreDevDependencies origin,
      Visits env ignoreDevDependencies origin ∧
        Depends env ignoreDevDependencies origin module := by
  cases visits with
  | root => exact .inl rfl
  | dependency visits depends => exact .inr ⟨_, _, visits, depends⟩

/-- Finitely many modules are reachable. -/
theorem finite_visits (registry : FiniteRegistry env) :
    {module | Visits env true module}.Finite := by
  -- The modules that have dependencies are in the registry, or are provided by an override.
  have sources := (registry.union (finite_toSet (overrideModules env))).insert (rootModule env)
  refine ((sources.biUnion (t := fun module => ⋃ ignoreDevDependencies,
    {target | Depends env ignoreDevDependencies module target}) fun module _ =>
      Set.finite_iUnion fun ignoreDevDependencies =>
        finite_depends env ignoreDevDependencies module).insert (rootModule env)).subset ?_
  intro target reached
  rcases Visits.eq_root_or reached with rfl | ⟨_, module, visits, depends⟩
  · exact Set.mem_insert _ _
  refine Set.mem_insert_of_mem _ (Set.mem_biUnion ?_ (Set.mem_iUnion_of_mem _ depends))
  rcases visits.eq_root_or with rfl | ⟨_, origin, -, dep, -, redirects⟩
  · exact Set.mem_insert _ _
  · apply Set.mem_insert_of_mem
    obtain ⟨_, ⟨calls, entry, provides, -⟩, -⟩ := depends
    by_cases plain : lookup env.modulesWithOverrides module.name = none
    · exact .inl ⟨plain, _, entry, provides⟩
    · exact .inr (redirects.mem_overrideModules plain)

end Bonanza.Modules
