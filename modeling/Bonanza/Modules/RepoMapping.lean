import Bonanza.Modules.Reachability

/-! # Repo mappings

`ComputeModuleRepoMappingValue` maps the names of repos that a `MODULE.bazel` file uses to canonical
repos. Dependencies on modules that have multiple versions need to be mapped to the same version as
the one that `ComputeModuleRoughBuildListValue` follows.

They are not. The handler for `bazel_dep()` looks up the nearest version of a variable that is yet
to be assigned, instead of the one requested. The two agree up to the first dependency on a module
for which an override lists versions (`agrees_iff`).
-/

namespace Bonanza.Modules

open List AssocList Label

/-- A value of the `repoMapping` interface. -/
inductive RepoMapping where
  | canonical (canonicalRepo : Text)
  | moduleExtension (extensionBzlFile : LabelRepo) (extensionName toApparentRepo : Text)
  deriving DecidableEq

/-- How the computation of repo mappings fails. -/
inductive RepoMappingError where
  | malformed (message : String)
  | multipleRepos (apparentRepo : Text)
  | lookupFailed (error : LookupError)
  | extensionUsesRoot (apparentRepo : Text)
  | extensionUsesUnknownRepo (apparentRepo extensionApparentRepo : Text)
  | extensionUsesModuleExtension (apparentRepo extensionApparentRepo : Text)
  deriving DecidableEq

/-- `repoMappingCapturingModuleDotBazelHandler`. -/
structure Handler where
  moduleInstance : Text
  modulesWithMultipleVersions : List (Text × OverrideVersions)
  ignoreDevDependencies : Bool
  repos : List (Text × RepoMapping)

namespace Handler

/-- Map the name of a repo, which may not have been used before. -/
def setRepo (h : Handler) (apparentRepo : Text) (mapping : RepoMapping) :
    Except RepoMappingError Handler :=
  match lookup h.repos apparentRepo with
  | some _ => .error (.multipleRepos apparentRepo)
  | none => .ok { h with repos := insert h.repos apparentRepo mapping }

/-- The handler for `bazel_dep()`. -/
def bazelDep (h : Handler) (dep : BazelDep) : Except RepoMappingError Handler :=
  if dep.devDependency && h.ignoreDevDependencies then .ok h
  else
    let versions := (lookup h.modulesWithMultipleVersions dep.name).getD []
    let nearestVersion : Option ModuleVersion := none
    if versions.length > 0 then
      match OverrideVersions.lookupNearestVersion versions nearestVersion with
      | .error error => .error (.lookupFailed error)
      | .ok v => h.setRepo dep.repoName (.canonical (toModuleInstance dep.name (some v)))
    else
      h.setRepo dep.repoName (.canonical (toModuleInstance dep.name nearestVersion))

/-- The loop of `repoMappingCapturingModuleExtensionProxy.UseRepo`. -/
def useRepo (extensionBzlFile : LabelRepo) (extensionName : Text) :
    List (Text × Text) → Handler → Except RepoMappingError Handler
  | [], h => .ok h
  | (fromApparentRepo, toApparentRepo) :: repos, h =>
    match h.setRepo fromApparentRepo
      (.moduleExtension extensionBzlFile extensionName toApparentRepo) with
    | .error error => .error error
    | .ok h => useRepo extensionBzlFile extensionName repos h

/-- Handle one of the calls in a file. -/
def handle (h : Handler) : Call → Except RepoMappingError Handler
  | .bazelDep dep => h.bazelDep dep
  | .module repoName => h.setRepo repoName (.canonical h.moduleInstance)
  | .useRepo extensionBzlFile extensionName repos devDependency =>
    if !devDependency || !h.ignoreDevDependencies then
      useRepo extensionBzlFile extensionName repos h
    else .ok h
  | .repoRule name devDependency =>
    if devDependency && h.ignoreDevDependencies then .ok h
    else
      h.setRepo name (.canonical (h.moduleInstance ++ "+_repo_rules+".toList ++ name))
  | .other => .ok h

/-- Handle all calls of a file. -/
def handleAll : Handler → List Call → Except RepoMappingError Handler
  | h, [] => .ok h
  | h, call :: calls =>
    match h.handle call with
    | .error error => .error error
    | .ok h => handleAll h calls

end Handler

open Handler

/-- The module instance of a repo. -/
def getModuleInstance (repo : Text) : Text :=
  match cut '+' repo with
  | none => repo
  | some (module, rest) =>
    match cut '+' rest with
    | none => repo
    | some (version, _) => module ++ '+' :: version

/-- Resolve a mapping, which may refer to another one. -/
def RepoMapping.toProto (fromApparentRepo : Text) (others : List (Text × RepoMapping)) :
    RepoMapping → Except RepoMappingError (Text × Text)
  | .canonical canonicalRepo => .ok (fromApparentRepo, canonicalRepo)
  | .moduleExtension extensionBzlFile extensionName toApparentRepo =>
    let convert (canonicalRepo : Text) : Text × Text :=
      (fromApparentRepo,
        getModuleInstance canonicalRepo ++ '+' :: extensionName ++ '+' :: toApparentRepo)
    match extensionBzlFile with
    | .canonical canonicalRepo => .ok (convert canonicalRepo)
    | .root => .error (.extensionUsesRoot fromApparentRepo)
    | .apparent extensionApparentRepo =>
      match lookup others extensionApparentRepo with
      | none => .error (.extensionUsesUnknownRepo fromApparentRepo extensionApparentRepo)
      | some (.moduleExtension ..) =>
        .error (.extensionUsesModuleExtension fromApparentRepo extensionApparentRepo)
      | some (.canonical canonicalRepo) => .ok (convert canonicalRepo)

/-- Convert all mappings. -/
def toProtos (others : List (Text × RepoMapping)) :
    List (Text × RepoMapping) → Except RepoMappingError (List (Text × Text))
  | [] => .ok []
  | (apparentRepo, mapping) :: repos =>
    match mapping.toProto apparentRepo others with
    | .error error => .error error
    | .ok mapping =>
      match toProtos others repos with
      | .error error => .error error
      | .ok mappings => .ok (mapping :: mappings)

/-- The overrides that list more than one version. -/
def computeModulesWithMultipleVersionsValue (overridesList : List (Text × OverrideVersions)) :
    List (Text × OverrideVersions) :=
  overridesList.filter fun module => module.2.length > 0

/-- The module of an instance. -/
def getModule (moduleInstance : Text) : Text :=
  ((cut '+' moduleInstance).map Prod.fst).getD moduleInstance

/-- The calls of a file, and the dependency that `parseModuleDotBazel` adds. -/
def withBazelTools (moduleInstance : Text) (calls : List Call) : List Call :=
  if getModule moduleInstance = "bazel_tools".toList then calls
  else calls ++ [.bazelDep ⟨"bazel_tools".toList, none, "bazel_tools".toList, false⟩]

section

variable (env : Environment) (moduleInstance : Text)

/-- The handler with which `ComputeModuleRepoMappingValue` starts. -/
def initialHandler : Handler where
  moduleInstance := moduleInstance
  modulesWithMultipleVersions := computeModulesWithMultipleVersionsValue env.modulesWithOverrides
  ignoreDevDependencies :=
    env.ignoreRootModuleDevDependencies || getModule moduleInstance ≠ env.rootModuleName
  repos := []

/-- `ComputeModuleRepoMappingValue`, for a file read. -/
def computeModuleRepoMappingValue (file : ModuleFile) :
    Except RepoMappingError (List (Text × Text)) :=
  match file with
  | .error message => .error (.malformed message)
  | .ok calls =>
    match (initialHandler env moduleInstance).handleAll (withBazelTools moduleInstance calls) with
    | .error error => .error error
    | .ok h => toProtos h.repos (h.repos.insertionSort fun a b => a.1 ≤ b.1)

/-! ## Agreement -/

/-- The versions that the override of a module lists. -/
def listedVersions (name : Text) : OverrideVersions :=
  (lookup env.modulesWithOverrides name).getD []

/-- The instance whose file `ComputeModuleRoughBuildListValue` loads. -/
def targetInstance (target : ModuleToCheck) : Text :=
  toModuleInstance target.name
    (if (listedVersions env target.name).length > 1 then some target.version else none)

/-- The version of a dependency is absent, or exceeds all listed versions. -/
def Rejected (dep : BazelDep) : Prop :=
  dep.version = none ∨ ∃ version, dep.version = some version ∧
    ∀ v ∈ listedVersions env dep.name, v.compare version < 0

/-- A dependency is mapped to the instance followed, or to the one without a version. -/
def MapsTo (dep : BazelDep) (canonicalRepo : Text) : Prop :=
  (∀ target, Redirects env dep target → canonicalRepo = targetInstance env target) ∧
    ((listedVersions env dep.name).length ≤ 1 → canonicalRepo = toModuleInstance dep.name none)

/-- A handler maps a dependency as intended. -/
def DepAgrees (h : Handler) (dep : BazelDep) : Prop :=
  match h.bazelDep dep with
  | .ok after => ∃ canonicalRepo, MapsTo env dep canonicalRepo ∧
      lookup after.repos dep.repoName = some (.canonical canonicalRepo)
  | .error _ => lookup h.repos dep.repoName ≠ none ∨
      listedVersions env dep.name ≠ [] ∧ Rejected env dep

/-- A handler gets to process a dependency. -/
def Handles (calls : List Call) (h : Handler) (dep : BazelDep) : Prop :=
  ∃ before after, withBazelTools moduleInstance calls = before ++ .bazelDep dep :: after ∧
    (initialHandler env moduleInstance).handleAll before = .ok h ∧
    (dep.devDependency && h.ignoreDevDependencies) = false

/-- All dependencies of a file are mapped as intended. -/
structure Agrees (calls : List Call) : Prop where
  handled : ∀ h dep, Handles env moduleInstance calls h dep → DepAgrees env h dep
  mapped : ∀ mappings, computeModuleRepoMappingValue env moduleInstance (.ok calls) = .ok mappings →
    ∀ dep ∈ followed (initialHandler env moduleInstance).ignoreDevDependencies
      (withBazelTools moduleInstance calls),
      ∃ canonicalRepo, MapsTo env dep canonicalRepo ∧ (dep.repoName, canonicalRepo) ∈ mappings

end

/-! ## Handling calls -/

variable {apparentRepo : Text} {calls : List Call}

section

variable {h after : Handler}

/-- Repos that have been set remain. -/
structure Handler.Extends (h after : Handler) : Prop where
  versions : after.modulesWithMultipleVersions = h.modulesWithMultipleVersions
  ignores : after.ignoreDevDependencies = h.ignoreDevDependencies
  keeps : ∀ apparentRepo mapping, AssocList.lookup h.repos apparentRepo = some mapping →
    lookup after.repos apparentRepo = some mapping

namespace Handler

theorem Extends.refl (h : Handler) : h.Extends h := ⟨rfl, rfl, fun _ _ found => found⟩

theorem Extends.trans {later : Handler} (first : h.Extends after) (second : after.Extends later) :
    h.Extends later where
  versions := second.versions.trans first.versions
  ignores := second.ignores.trans first.ignores
  keeps apparentRepo mapping found := second.keeps _ _ (first.keeps apparentRepo mapping found)

theorem setRepo_eq_ok {mapping : RepoMapping} (sets : h.setRepo apparentRepo mapping = .ok after) :
    h.Extends after ∧ lookup after.repos apparentRepo = some mapping := by
  cases taken : lookup h.repos apparentRepo with
  | some other => simp [setRepo, taken] at sets
  | none =>
    simp only [setRepo, taken, Except.ok.injEq] at sets
    subst sets
    refine ⟨⟨rfl, rfl, fun other mapping found => ?_⟩, lookup_insert_self⟩
    rw [lookup_insert_of_ne]
    · exact found
    · rintro rfl
      cases taken.symm.trans found

theorem bazelDep_extends {dep : BazelDep} (handles : h.bazelDep dep = .ok after) :
    h.Extends after := by
  simp only [bazelDep] at handles
  split_ifs at handles with ignored
  · cases handles
    exact .refl _
  · split at handles
    · cases handles
    · exact (setRepo_eq_ok handles).1
  · exact (setRepo_eq_ok handles).1

theorem useRepo_extends {extensionBzlFile : LabelRepo} {extensionName : Text}
    {repos : List (Text × Text)}
    (handles : useRepo extensionBzlFile extensionName repos h = .ok after) : h.Extends after := by
  induction repos generalizing h with
  | nil =>
    cases handles
    exact .refl _
  | cons repo repos ih =>
    rw [useRepo] at handles
    split at handles
    · exact absurd handles nofun
    · next between sets => exact (setRepo_eq_ok sets).1.trans (ih handles)

theorem handle_extends {call : Call} (handles : h.handle call = .ok after) : h.Extends after := by
  cases call with
  | bazelDep dep => exact bazelDep_extends handles
  | module repoName => exact (setRepo_eq_ok handles).1
  | useRepo extensionBzlFile extensionName repos devDependency =>
    rw [handle] at handles
    split_ifs at handles
    · exact useRepo_extends handles
    · cases handles
      exact .refl _
  | repoRule name devDependency =>
    rw [handle] at handles
    split_ifs at handles
    · cases handles
      exact .refl _
    · exact (setRepo_eq_ok handles).1
  | other =>
    cases handles
    exact .refl _

theorem handleAll_extends (handles : h.handleAll calls = .ok after) : h.Extends after := by
  induction calls generalizing h with
  | nil =>
    cases handles
    exact .refl _
  | cons call calls ih =>
    rw [handleAll] at handles
    split at handles
    · exact absurd handles nofun
    · next between handled => exact (handle_extends handled).trans (ih handles)

theorem handleAll_append {before calls : List Call}
    (handles : h.handleAll (before ++ calls) = .ok after) :
    ∃ between, h.handleAll before = .ok between ∧ between.handleAll calls = .ok after := by
  induction before generalizing h with
  | nil => exact ⟨h, rfl, handles⟩
  | cons call before ih =>
    rw [cons_append, handleAll] at handles
    rw [handleAll]
    split at handles
    · exact absurd handles nofun
    · next next handled =>
      exact ih handles

end Handler

end

/-! ## Mapping dependencies -/

section

variable {env : Environment} {moduleInstance : Text} {h : Handler} {dep : BazelDep}
  {mappings : List (Text × Text)}

theorem mapsTo_of_unlisted (unlisted : listedVersions env dep.name = []) :
    MapsTo env dep (toModuleInstance dep.name none) := by
  refine ⟨fun target redirects => ?_, fun _ => rfl⟩
  have same : target.name = dep.name := by cases redirects <;> rfl
  simp [targetInstance, same, unlisted]

theorem mem_of_toProtos {others repos : List (Text × RepoMapping)} {canonicalRepo : Text}
    (converts : toProtos others repos = .ok mappings)
    (member : (apparentRepo, .canonical canonicalRepo) ∈ repos) :
    (apparentRepo, canonicalRepo) ∈ mappings := by
  induction repos generalizing mappings with
  | nil => exact absurd member not_mem_nil
  | cons repo repos ih =>
    rw [toProtos] at converts
    split at converts
    · exact absurd converts nofun
    rename_i mapping first
    split at converts
    · exact absurd converts nofun
    rename_i rest remaining
    cases converts
    rcases mem_cons.mp member with rfl | member
    · cases first
      exact mem_cons_self
    · exact mem_cons_of_mem _ (ih remaining member)

theorem exists_of_mem_followed {ignoreDevDependencies : Bool}
    (member : dep ∈ followed ignoreDevDependencies calls) :
    ∃ before after, calls = before ++ .bazelDep dep :: after ∧
      (dep.devDependency && ignoreDevDependencies) = false := by
  obtain ⟨call, member, follows⟩ := mem_filterMap.mp member
  obtain ⟨before, after, split⟩ := append_of_mem member
  cases call with
  | bazelDep other =>
    simp only [Option.ite_none_right_eq_some, Option.some.injEq] at follows
    obtain ⟨follows, rfl⟩ := follows
    refine ⟨before, after, split, ?_⟩
    rw [Bool.and_eq_false_iff]
    simpa using follows
  | module repoName => exact absurd follows nofun
  | useRepo extensionBzlFile extensionName repos devDependency => exact absurd follows nofun
  | repoRule name devDependency => exact absurd follows nofun
  | other => exact absurd follows nofun

variable (unique : (env.modulesWithOverrides.map Prod.fst).Nodup)

include unique

theorem getD_lookup_computeModulesWithMultipleVersionsValue (name : Text) :
    (lookup (computeModulesWithMultipleVersionsValue env.modulesWithOverrides) name).getD
      [] = listedVersions env name := by
  rw [computeModulesWithMultipleVersionsValue, lookup_filter unique, listedVersions]
  cases lookup env.modulesWithOverrides name with
  | none => rfl
  | some versions =>
    cases versions with
    | nil => rfl
    | cons version versions => rfl

theorem bazelDep_eq (versions : h.modulesWithMultipleVersions =
      computeModulesWithMultipleVersionsValue env.modulesWithOverrides)
    (follows : (dep.devDependency && h.ignoreDevDependencies) = false) :
    h.bazelDep dep =
      if listedVersions env dep.name = [] then
        h.setRepo dep.repoName (.canonical (toModuleInstance dep.name none))
      else .error (.lookupFailed .noVersion) := by
  simp only [bazelDep, follows, versions,
    getD_lookup_computeModulesWithMultipleVersionsValue unique]
  cases listedVersions env dep.name with
  | nil => rfl
  | cons version versions => rfl

/-- When a single dependency is mapped as intended. -/
theorem depAgrees_iff (versions : h.modulesWithMultipleVersions =
      computeModulesWithMultipleVersionsValue env.modulesWithOverrides)
    (follows : (dep.devDependency && h.ignoreDevDependencies) = false) :
    DepAgrees env h dep ↔ listedVersions env dep.name = [] ∨
      lookup h.repos dep.repoName ≠ none ∨ Rejected env dep := by
  rw [DepAgrees, bazelDep_eq unique versions follows]
  by_cases unlisted : listedVersions env dep.name = []
  · rw [if_pos unlisted]
    refine iff_of_true ?_ (.inl unlisted)
    cases sets : h.setRepo dep.repoName (.canonical (toModuleInstance dep.name none)) with
    | error error =>
      refine .inl fun free => ?_
      simp [setRepo, free] at sets
    | ok after => exact ⟨_, mapsTo_of_unlisted unlisted, (setRepo_eq_ok sets).2⟩
  · rw [if_neg unlisted]
    simp [unlisted]

theorem mapped_of_computeModuleRepoMappingValue {calls : List Call} {mappings : List (Text × Text)}
    (computes : computeModuleRepoMappingValue env moduleInstance (.ok calls) = .ok mappings)
    (member : dep ∈ followed (initialHandler env moduleInstance).ignoreDevDependencies
      (withBazelTools moduleInstance calls)) :
    ∃ canonicalRepo, MapsTo env dep canonicalRepo ∧ (dep.repoName, canonicalRepo) ∈ mappings := by
  obtain ⟨before, later, split, follows⟩ := exists_of_mem_followed member
  simp only [computeModuleRepoMappingValue, split] at computes
  cases handles : (initialHandler env moduleInstance).handleAll
    (before ++ .bazelDep dep :: later) with
  | error error => simp [handles] at computes
  | ok final =>
    simp only [handles] at computes
    obtain ⟨h, reaches, continues⟩ := handleAll_append handles
    have started := handleAll_extends reaches
    rw [handleAll, handle,
      bazelDep_eq unique started.versions (started.ignores ▸ follows)] at continues
    split at continues
    · exact absurd continues nofun
    rename_i after handled
    split_ifs at handled with unlisted
    have set := (setRepo_eq_ok handled).2
    have kept := (handleAll_extends continues).keeps _ _ set
    refine ⟨_, mapsTo_of_unlisted unlisted, mem_of_toProtos computes ?_⟩
    exact (perm_insertionSort _ _).mem_iff.mpr (mem_of_lookup kept)

/-- The repo mapping agrees with the rough build list if no dependency is on a module for which an
override lists versions, except for ones that are meant to fail. -/
theorem agrees_iff {calls : List Call} : Agrees env moduleInstance calls ↔
    ∀ h dep, Handles env moduleInstance calls h dep → listedVersions env dep.name = [] ∨
      lookup h.repos dep.repoName ≠ none ∨ Rejected env dep := by
  have pointwise : ∀ h dep, Handles env moduleInstance calls h dep →
      (DepAgrees env h dep ↔ listedVersions env dep.name = [] ∨
        lookup h.repos dep.repoName ≠ none ∨ Rejected env dep) := by
    rintro h dep ⟨before, after, -, handles, follows⟩
    exact depAgrees_iff unique (handleAll_extends handles).versions follows
  constructor
  · intro agrees h dep handles
    exact (pointwise h dep handles).mp (agrees.handled h dep handles)
  · intro holds
    refine ⟨fun h dep handles => (pointwise h dep handles).mpr (holds h dep handles), ?_⟩
    exact fun mappings computes dep member =>
      mapped_of_computeModuleRepoMappingValue unique computes member

end

/-- An override that lists versions 1.0 and 2.0 of module `m`. -/
def listedEnvironment : Environment where
  rootModuleName := ['r']
  ignoreRootModuleDevDependencies := false
  modulesWithOverrides := [(['r'], []), (['m'], [⟨['1', '.', '0']⟩, ⟨['2', '.', '0']⟩])]
  registryUrls := []
  strictVendorMode := false
  getModuleDotBazelContentsValue _ := some (.ok [])
  readVendoredFile _ _ := .noMirror
  getHTTPFileContentsValue _ _ := some none

/-- A file that does not depend on the module with versions. -/
def unlistedCalls : List Call :=
  [.bazelDep ⟨['r'], none, ['r'], false⟩, .bazelDep ⟨['a'], some ⟨['1']⟩, ['b'], true⟩]

/-- Dependencies on other modules are mapped as intended. -/
theorem agrees_of_unlisted : Agrees listedEnvironment ['r', '+'] unlistedCalls := by
  refine (agrees_iff (by decide)).mpr ?_
  rintro h dep ⟨before, after, calls_eq, -⟩
  have member : .bazelDep dep ∈ withBazelTools ['r', '+'] unlistedCalls := by
    rw [calls_eq]
    exact mem_append_right _ mem_cons_self
  left
  rw [withBazelTools, if_neg (by decide)] at member
  simp only [unlistedCalls, cons_append, nil_append, mem_cons, Call.bazelDep.injEq, not_mem_nil,
    or_false] at member
  rcases member with rfl | rfl | rfl <;> rfl

/-- A dependency on version 1.0 leads to that version. Computing a repo mapping fails, as if no
version was requested. -/
theorem computeModuleRepoMappingValue_rejects_listed :
    Ascending listedEnvironment ∧
    Redirects listedEnvironment ⟨['m'], some ⟨['1', '.', '0']⟩, ['m'], false⟩
      ⟨['m'], ⟨['1', '.', '0']⟩⟩ ∧
    computeModuleRepoMappingValue listedEnvironment ['r', '+']
      (.ok [.bazelDep ⟨['m'], some ⟨['1', '.', '0']⟩, ['m'], false⟩]) =
        .error (.lookupFailed .noVersion) ∧
    ¬Agrees listedEnvironment ['r', '+']
      [.bazelDep ⟨['m'], some ⟨['1', '.', '0']⟩, ['m'], false⟩] := by
  refine ⟨?_, ?_, rfl, fun agrees => ?_⟩
  · intro name versions override
    rcases mem_cons.mp (mem_of_lookup override) with same | member
    · cases same
      exact List.Pairwise.nil
    · cases mem_singleton.mp member
      decide
  · have override : lookup listedEnvironment.modulesWithOverrides ['m'] =
        some [⟨['1', '.', '0']⟩, ⟨['2', '.', '0']⟩] := by decide
    exact .nearest override rfl (by decide)
  · have mapped := agrees.handled (initialHandler listedEnvironment ['r', '+'])
      ⟨['m'], some ⟨['1', '.', '0']⟩, ['m'], false⟩ ⟨[], _, rfl, rfl, rfl⟩
    rw [depAgrees_iff (by decide) rfl rfl] at mapped
    rcases mapped with unlisted | taken | absent | ⟨version, requested, above⟩
    · exact absurd unlisted (by decide)
    · exact taken rfl
    · exact absurd absent nofun
    · cases requested
      exact absurd (above ⟨['1', '.', '0']⟩ (by decide)) (by decide)

end Bonanza.Modules
