import Bonanza.Lib.AssocList
import Bonanza.Lib.BinarySearch
import Bonanza.Modules.Version

/-! # Build lists

`ComputeModuleRoughBuildListValue` visits all versions of all modules that can be reached from the
root module. For modules with an override, the sources that it provides are used. Of the remaining
ones, `ComputeModuleFinalBuildListValue` keeps the highest version.

A `MODULE.bazel` file is modelled as the sequence of calls that it makes. The order in which a map
of dependencies is iterated and a limit on the number of modules visited are arguments.
-/

namespace Bonanza.Modules

open Label

/-! ## Overrides -/

/-- `OverrideVersions`: the versions provided to `multiple_version_override()`. -/
abbrev OverrideVersions := List ModuleVersion

/-- Why `OverrideVersions.LookupNearestVersion` fails. -/
inductive LookupError where
  | noVersion
  | exceedsMaximum (version : ModuleVersion) (maximum : Option ModuleVersion)
  deriving DecidableEq

/-- Binary search for the first version that is not below another. -/
def OverrideVersions.lookupNearestVersion (ov : OverrideVersions) :
    Option ModuleVersion → Except LookupError ModuleVersion
  | none => .error .noVersion
  | some version =>
    let index := BinarySearch.search ov.length fun i =>
      (ov[i]?).any fun v => v.compare version ≥ 0
    match ov[index]? with
    | none => .error (.exceedsMaximum version ov.getLast?)
    | some v => .ok v

/-! ## Files -/

/-- A call to `bazel_dep()`. -/
structure BazelDep where
  name : Text
  version : Option ModuleVersion
  repoName : Text
  devDependency : Bool
  deriving DecidableEq

/-- The repo that an `ApparentLabel` starts with. -/
inductive LabelRepo where
  | canonical (repo : Text)
  | apparent (repo : Text)
  | root
  deriving DecidableEq

/-- The calls that `MODULE.bazel` files make, up to the ones that handlers ignore. -/
inductive Call where
  | bazelDep (dep : BazelDep)
  | module (repoName : Text)
  | useRepo (extensionBzlFile : LabelRepo) (extensionName : Text) (repos : List (Text × Text))
      (devDependency : Bool)
  | repoRule (name : Text) (devDependency : Bool)
  | other

/-- A `MODULE.bazel` file read and evaluated, which may have failed. -/
abbrev ModuleFile := Except String (List Call)

/-- A version of a module whose file is to be loaded. -/
@[ext]
structure ModuleToCheck where
  name : Text
  version : ModuleVersion
  deriving DecidableEq

/-- A version of a module, and the registry that has it. -/
structure BuildListModule where
  name : Text
  version : ModuleVersion
  registryUrl : Text
  deriving DecidableEq

/-- The result of `findVendoredRegistry` and `readVerifiedVendoredRegistryFile`. -/
inductive VendoredFile where
  | noMirror
  | failed (message : String)
  | unverified
  | absent
  | present (file : ModuleFile)

/-- The values on which the build list depends. Missing ones are none. -/
structure Environment where
  rootModuleName : Text
  ignoreRootModuleDevDependencies : Bool
  modulesWithOverrides : List (Text × OverrideVersions)
  registryUrls : List Text
  strictVendorMode : Bool
  getModuleDotBazelContentsValue : (moduleInstance : Text) → Option ModuleFile
  readVendoredFile : (registryUrl : Text) → ModuleToCheck → VendoredFile
  getHTTPFileContentsValue : (registryUrl : Text) → ModuleToCheck → Option (Option ModuleFile)

/-- How the computation of build lists fails. -/
inductive BuildListError where
  | noRegistryMirror (registryUrl : Text)
  | vendoredFailed (module : ModuleToCheck) (registryUrl : Text) (message : String)
  | vendoredAbsent (module : ModuleToCheck) (registryUrl : Text)
  | notVendored (module : ModuleToCheck)
  | notFound (module : ModuleToCheck)
  | malformed (module : ModuleToCheck) (message : String)
  | dependsMultipleTimes (name : Text)
  | noVersion (name dependency : Text)
  | lookupFailed (name dependency : Text) (error : LookupError)
  | ambiguous (name : Text) (first second : ModuleVersion)
  | missingDependency
  | limitExceeded

/-- The instance of a module, with the version if there is one. -/
def toModuleInstance (name : Text) : Option ModuleVersion → Text
  | none => name ++ ['+']
  | some version => name ++ '+' :: version.value

section

variable (env : Environment)

/-- The file of a module, and the entry that it gets in the build list. -/
inductive Located where
  | missing
  | found (file : ModuleFile) (entry : Option BuildListModule)

/-- The loop over vendored registries. -/
def locateVendored (module : ModuleToCheck) : List Text → Except BuildListError (Option Located)
  | [] => .ok none
  | registryUrl :: registryUrls =>
    match env.readVendoredFile registryUrl module with
    | .noMirror =>
      if env.strictVendorMode then .error (.noRegistryMirror registryUrl)
      else locateVendored module registryUrls
    | .failed message => .error (.vendoredFailed module registryUrl message)
    | .unverified => locateVendored module registryUrls
    | .absent => .error (.vendoredAbsent module registryUrl)
    | .present file => .ok (some (.found file (some ⟨module.name, module.version, registryUrl⟩)))

/-- The loop over registries. -/
def locateHTTP (module : ModuleToCheck) : List Text → Except BuildListError Located
  | [] => .error (.notFound module)
  | registryUrl :: registryUrls =>
    match env.getHTTPFileContentsValue registryUrl module with
    | none => .ok .missing
    | some (some file) => .ok (.found file (some ⟨module.name, module.version, registryUrl⟩))
    | some none => locateHTTP module registryUrls

/-- Obtain the `MODULE.bazel` file of a module. -/
def locate (module : ModuleToCheck) : Except BuildListError Located :=
  match AssocList.lookup env.modulesWithOverrides module.name with
  | some versions =>
    let moduleInstance :=
      toModuleInstance module.name (if versions.length > 1 then some module.version else none)
    match env.getModuleDotBazelContentsValue moduleInstance with
    | none => .ok .missing
    | some file => .ok (.found file none)
  | none => do
      match ← locateVendored env module env.registryUrls with
      | some located => return located
      | none =>
        if env.strictVendorMode then
          throw (.notVendored module)
        locateHTTP env module env.registryUrls

/-- `bazelDepCapturingModuleDotBazelHandler`. -/
def captureDependencies (ignoreDevDependencies : Bool) :
    List Call → List (Text × Option ModuleVersion) →
      Except BuildListError (List (Text × Option ModuleVersion))
  | [], dependencies => .ok dependencies
  | .bazelDep dep :: calls, dependencies =>
    if !dep.devDependency || !ignoreDevDependencies then
      match AssocList.lookup dependencies dep.name with
      | some _ => .error (.dependsMultipleTimes dep.name)
      | none =>
        captureDependencies ignoreDevDependencies calls
          (AssocList.insert dependencies dep.name dep.version)
    else
      captureDependencies ignoreDevDependencies calls dependencies
  | _ :: calls, dependencies => captureDependencies ignoreDevDependencies calls dependencies

/-- The version of a dependency that needs to be visited. -/
def resolveDependency (name : Text) (dependency : Text × Option ModuleVersion) :
    Except BuildListError ModuleToCheck :=
  match AssocList.lookup env.modulesWithOverrides dependency.1 with
  | none =>
    match dependency.2 with
    | none => .error (.noVersion name dependency.1)
    | some version => .ok ⟨dependency.1, version⟩
  | some versions =>
    if versions.length > 0 then
      match OverrideVersions.lookupNearestVersion versions dependency.2 with
      | .error error => .error (.lookupFailed name dependency.1 error)
      | .ok version => .ok ⟨dependency.1, version⟩
    else
      .ok ⟨dependency.1, ⟨[]⟩⟩

/-- The variables of `ComputeModuleRoughBuildListValue`. -/
structure State where
  ignoreDevDependencies : Bool
  modulesToCheck : List ModuleToCheck
  modulesSeen : List ModuleToCheck
  missingDependencies : Bool
  buildList : List BuildListModule

/-- Check a module, unless it has been seen. -/
def State.queue (state : State) (dependency : ModuleToCheck) : State :=
  if dependency ∈ state.modulesSeen then state
  else
    { state with
      modulesSeen := dependency :: state.modulesSeen
      modulesToCheck := state.modulesToCheck ++ [dependency] }

/-- The loop over the dependencies of a module. -/
def queueDependencies (name : Text) :
    List (Text × Option ModuleVersion) → State → Except BuildListError State
  | [], state => .ok state
  | dependency :: dependencies, state =>
    match resolveDependency env name dependency with
    | .error error => .error error
    | .ok dependency => queueDependencies name dependencies (state.queue dependency)

/-- An iteration of the loop over modules. Dependencies are iterated in some order. -/
def processModule
    (order : List (Text × Option ModuleVersion) → List (Text × Option ModuleVersion))
    (state : State) (module : ModuleToCheck) : Except BuildListError State :=
  match locate env module with
  | .error error => .error error
  | .ok .missing => .ok { state with missingDependencies := true }
  | .ok (.found file entry) =>
    match file with
    | .error message => .error (.malformed module message)
    | .ok calls =>
      match captureDependencies state.ignoreDevDependencies calls [] with
      | .error error => .error error
      | .ok dependencies =>
        queueDependencies env module.name (order dependencies)
          { state with
            ignoreDevDependencies := true
            buildList := state.buildList ++ entry.toList }

/-- The loop over modules. -/
def processModules
    (order : Nat → List (Text × Option ModuleVersion) → List (Text × Option ModuleVersion)) :
    (limit : Nat) → State → Except BuildListError State
  | 0, _ => .error .limitExceeded
  | limit + 1, state =>
    match state.modulesToCheck with
    | [] => .ok state
    | module :: modulesToCheck =>
      match processModule env (order limit) { state with modulesToCheck } module with
      | .error error => .error error
      | .ok state => processModules order limit state

end

/-! ## Build lists -/

/-- The order of the rough build list. -/
def less (a b : BuildListModule) : Bool :=
  if a.name < b.name then true
  else if b.name < a.name then false
  else if a.version.compare b.version < 0 then true
  else if a.version.compare b.version > 0 then false
  else decide (a.version.value < b.version.value)

/-- The variables at the start of `ComputeModuleRoughBuildListValue`. -/
def initialState (env : Environment) : State where
  ignoreDevDependencies := env.ignoreRootModuleDevDependencies
  modulesToCheck := [⟨env.rootModuleName, ⟨['0']⟩⟩]
  modulesSeen := []
  missingDependencies := false
  buildList := []

/-- All versions of modules that are reachable, in order. -/
def computeModuleRoughBuildListValue (env : Environment)
    (order : Nat → List (Text × Option ModuleVersion) → List (Text × Option ModuleVersion))
    (limit : Nat) : Except BuildListError (List BuildListModule) := do
  let state ← processModules env order limit (initialState env)
  if state.missingDependencies then
    throw .missingDependency
  return state.buildList.insertionSort fun a b => less b a = false

/-- The loop of `ComputeModuleFinalBuildListValue`, on a reversed build list. -/
def selectVersions : (buildList : List BuildListModule) → (previousVersion : ModuleVersion) →
    List BuildListModule → Except BuildListError (List BuildListModule)
  | buildList, _, [] => .ok buildList.reverse
  | [], _, module :: rest => selectVersions [module] module.version rest
  | last :: buildList, previousVersion, module :: rest =>
    if last.name ≠ module.name then
      -- New module.
      selectVersions (module :: last :: buildList) module.version rest
    else if previousVersion.compare module.version < 0 then
      -- Same module, but a higher version.
      selectVersions (module :: buildList) module.version rest
    else if previousVersion.compare module.version = 0 ∧
        (rest.head?.map BuildListModule.name) ≠ some module.name then
      .error (.ambiguous module.name previousVersion module.version)
    else
      selectVersions (last :: buildList) module.version rest

/-- `ComputeModuleFinalBuildListValue`, which gets the rough build list. -/
def computeModuleFinalBuildListValue (roughBuildList : List BuildListModule) :
    Except BuildListError (List BuildListModule) :=
  selectVersions [] ⟨[]⟩ roughBuildList

/-- `ComputeModuleRoughBuildListValue`, followed by `ComputeModuleFinalBuildListValue`. -/
def computeBuildList (env : Environment)
    (order : Nat → List (Text × Option ModuleVersion) → List (Text × Option ModuleVersion))
    (limit : Nat) : Except BuildListError (List BuildListModule) := do
  computeModuleFinalBuildListValue (← computeModuleRoughBuildListValue env order limit)

end Bonanza.Modules
