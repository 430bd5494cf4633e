import Bonanza.Label.NormalForm

/-! # Paths of labels

Labels that refer to files are converted to paths, relative to the directory of their repo or the
one that contains all repos. Both lead to a file below the directory of the repo, and the name
of the target can be split into components, unless `..` stands between separators of the label. The
latter should not be accepted, but the pattern for components permits it (`relativePaths_iff`).
-/

namespace Bonanza.Label

open List Option Regex Repo CanonicalPackage CanonicalLabel

namespace CanonicalLabel

/-- The path relative to the directory of all repos. -/
def getExternalRelativePath (l : CanonicalLabel) : Text :=
  let label := l.value.drop 2
  match cut ':' label with
  | some (repoAndPackage, targetName) =>
    let (repoSlash, pkg) := match cut '/' repoAndPackage with
      | some (before, after) => (before ++ ['/'], after.drop 1)
      | none => ([], repoAndPackage.drop 1)
    if pkg = [] then repoSlash ++ targetName else repoSlash ++ pkg ++ '/' :: targetName
  | none =>
    match cut '/' label with
    | some (before, after) => before ++ ['/'] ++ after.drop 1 ++ '/' :: afterLast '/' label
    | none => label ++ '/' :: label

/-- The path relative to the directory of the repo. -/
def getRepoRelativePath (l : CanonicalLabel) : Text :=
  let label := l.value.drop 2
  match cut ':' label with
  | some (repoAndPackage, targetName) =>
    let pkg := match cut '/' repoAndPackage with
      | some (_, after) => after.drop 1
      | none => repoAndPackage.drop 1
    if pkg = [] then targetName else pkg ++ '/' :: targetName
  | none =>
    match cut '/' label with
    | some (_, after) => after.drop 1 ++ '/' :: afterLast '/' label
    | none => label

end CanonicalLabel

/-- `path.MustNewComponent`, which panics if the name has a meaning of its own. -/
def mustNewComponent (name : Text) : Option Text :=
  if name = [] ∨ name = ['.'] ∨ name = ['.', '.'] then none else some name

/-- Split the name of a target, which panics for names like `..`. -/
def toComponents (v : Text) : Option (List Text) :=
  match _found : cut '/' v with
  | none => (mustNewComponent v).map ([·])
  | some (component, rest) => do
    let component ← mustNewComponent component
    return component :: (← toComponents rest)
termination_by v.length
decreasing_by
  rw [eq_append_of_cut _found]
  grind

/-- The directory reached through one component of a path, if it has a parent. -/
def enter (directory : List Text) (name : Text) : Option (List Text) :=
  if name = [] ∨ name = ['.'] then some directory
  else if name = ['.', '.'] then if directory = [] then none else some directory.dropLast
  else some (directory ++ [name])

/-- Whether a path leads to a file below a directory. -/
def LeadsBelow (directory : List Text) (path : Text) : Prop :=
  ∃ names ≠ [], (components path).foldlM enter [] = some (directory ++ names)

/-- What stands between the separators of a label. -/
def separatedParts (text : Text) : List Text :=
  text.splitOnP fun c => c = '/' || c = ':'

variable {name : Text} {names : List Text} {target : Option Text} {l : CanonicalLabel}

/-! ## Components of paths -/

/-- Components of paths, which may lead to a parent directory. -/
structure IsPathComponent (name : Text) : Prop extends IsComponent name where
  ne_dot : name ≠ ['.']

/-- Components of paths that lead to a file in the current directory. -/
structure IsFileName (name : Text) : Prop extends IsPathComponent name where
  ne_parent : name ≠ ['.', '.']

theorem isFileName_of_notDots (valid : IsComponent name) (notDots : ∃ c ∈ name, c ≠ '.') :
    IsFileName name := by
  refine ⟨⟨valid, ?_⟩, ?_⟩ <;>
  · rintro rfl
    simp at notDots

theorem IsPackageComponent.isFileName (valid : IsPackageComponent name) : IsFileName name :=
  isFileName_of_notDots valid.isComponent valid.notDots

theorem IsTargetComponent.isPathComponent (valid : IsTargetComponent name) :
    IsPathComponent name := by
  rcases id valid with component | ⟨long, _⟩
  · exact component.isFileName.toIsPathComponent
  · refine ⟨valid.isComponent, ?_⟩
    rintro rfl
    exact absurd long (by decide)

theorem isFileName_of_canonical (valid : (canonical name).Valid) : IsFileName name := by
  have isName := isRepoName valid rfl
  refine isFileName_of_notDots ⟨isName.nonempty, isName.no_slash, isName.no_colon⟩
    ⟨'+', ?_, by decide⟩
  obtain ⟨_, _, instanceName, _, rfl⟩ := matches_seq_iff.mp valid
  obtain ⟨_, _, _, version, rfl⟩ := matches_seq_iff.mp instanceName
  obtain ⟨_, _, plus, _, rfl⟩ := matches_seq_iff.mp version
  obtain rfl := matches_literal_iff.mp plus
  simp

theorem exists_target_eq_join {text : Text} {d : Meaning} (denotes : Denotes text d)
    (canonical : d.repo = .canonical name) :
    ∃ names ≠ [], (∀ name ∈ names, IsPathComponent name) ∧ d.target = join names := by
  obtain ⟨valid, target, path, named, -⟩ := denotes
  rw [Meaning.implied, implied, canonical, or_eq_some_iff, or_eq_some_iff] at named
  rcases named with given | ⟨-, last | ⟨-, root⟩⟩
  · obtain ⟨names, nonempty, components, joined⟩ := path.target _ given
    exact ⟨names, nonempty, fun name member => (components name member).isPathComponent, joined⟩
  · have component := (path.names _ (mem_of_getLast? last)).isFileName.toIsPathComponent
    exact ⟨[d.target], cons_ne_nil _ _, forall_mem_singleton.mpr component, rfl⟩
  · cases root
    rw [canonical] at valid
    have component := (isFileName_of_canonical valid).toIsPathComponent
    exact ⟨[d.target], cons_ne_nil _ _, forall_mem_singleton.mpr component, rfl⟩

theorem mustNewComponent_eq (valid : IsPathComponent name) :
    mustNewComponent name = if name = ['.', '.'] then none else some name := by
  simp [mustNewComponent, valid.nonempty, valid.ne_dot]

theorem toComponents_join (valid : ∀ name ∈ names, IsPathComponent name) (nonempty : names ≠ []) :
    toComponents (join names) = if ['.', '.'] ∈ names then none else some names := by
  induction names with
  | nil => exact absurd rfl nonempty
  | cons name names ih =>
    obtain ⟨first, others⟩ := forall_mem_cons.mp valid
    have component := mustNewComponent_eq first
    rw [toComponents]
    cases names with
    | nil =>
      have absent : cut '/' (join [name]) = none := cut_of_not_mem first.no_slash
      split <;> grind [join]
    | cons other names =>
      have found : cut '/' (join (name :: other :: names)) = some (name, join (other :: names)) :=
        cut_append first.no_slash _
      have rest := ih others (cons_ne_nil _ _)
      split <;> grind

theorem foldlM_enter (valid : ∀ name ∈ names, IsFileName name) (directory : List Text) :
    names.foldlM enter directory = some (directory ++ names) := by
  induction names generalizing directory with
  | nil => simp
  | cons name names ih =>
    obtain ⟨first, others⟩ := forall_mem_cons.mp valid
    have entered : enter directory name = some (directory ++ [name]) := by
      simp [enter, first.nonempty, first.ne_dot, first.ne_parent]
    rw [foldlM_cons, entered]
    exact (ih others _).trans (by simp)

/-! ## Separators of labels -/

theorem IsComponent.not_separator (valid : IsComponent name) :
    ∀ c ∈ name, (decide (c = '/') || decide (c = ':')) = false := by
  intro c member
  have slash : c ≠ '/' := fun same => valid.no_slash (same ▸ member)
  have colon : c ≠ ':' := fun same => valid.no_colon (same ▸ member)
  simp [slash, colon]

theorem separatedParts_join (valid : ∀ name ∈ names, IsComponent name) (nonempty : names ≠ []) :
    separatedParts (join names) = names := by
  induction names with
  | nil => exact absurd rfl nonempty
  | cons name names ih =>
    obtain ⟨first, others⟩ := forall_mem_cons.mp valid
    cases names with
    | nil => exact splitOnP_eq_singleton first.not_separator
    | cons other names =>
      rw [join, separatedParts, splitOnP_append_cons_of_forall_mem first.not_separator _ rfl]
      exact congrArg _ (ih others (cons_ne_nil _ _))

/-- Only the name of a target that is given can consist of two dots. -/
theorem parent_mem_separatedParts_iff (valid : (canonical name).Valid)
    (package : ∀ name ∈ names, IsFileName name) :
    ['.', '.'] ∈ separatedParts ((canonical name).head ++ renderPath names target) ↔
      ∃ given ∈ target, ['.', '.'] ∈ separatedParts given := by
  have isName := isRepoName_of_canonical valid
  have head : ∀ c ∈ '@' :: '@' :: name, (decide (c = '/') || decide (c = ':')) = false := by
    have component : IsComponent name := ⟨isName.nonempty, isName.no_slash, isName.no_colon⟩
    simpa using component.not_separator
  have inside : ['.', '.'] ∉ separatedParts (join names) := by
    by_cases empty : names = []
    · rw [empty]
      decide
    · rw [separatedParts_join (fun name member => (package name member).toIsComponent) empty]
      exact fun member => (package _ member).ne_parent rfl
  unfold separatedParts at inside
  by_cases absent : names = [] ∧ target = none
  · rw [renderPath, if_pos absent, append_nil, absent.2]
    change ['.', '.'] ∈ separatedParts ('@' :: '@' :: name) ↔ _
    rw [separatedParts, splitOnP_eq_singleton head]
    simp
  · rw [renderPath_of_not absent]
    change ['.', '.'] ∈ separatedParts (('@' :: '@' :: name) ++ '/' :: ([] ++ '/' :: _)) ↔ _
    rw [separatedParts, splitOnP_append_cons_of_forall_mem head _ rfl,
      splitOnP_append_cons_of_forall_mem (forall_mem_nil _) _ rfl, mem_cons, mem_cons]
    cases target with
    | none =>
      rw [renderTarget, append_nil]
      simp [inside]
    | some given =>
      rw [renderTarget, splitOnP_append_cons _ _ rfl, mem_append]
      simp [inside, separatedParts]

/-! ## Paths of labels -/

section

variable (valid : (canonical name).Valid) (components : ∀ name ∈ names, IsComponent name)
  (value_eq : l.value = (canonical name).head ++ renderPath names target)

include valid components value_eq

theorem package_eq :
    l.getCanonicalPackage.getCanonicalRepo = name ∧
      l.getCanonicalPackage.getPackagePath = join names := by
  have isName := isRepoName_of_canonical valid
  have isRepo : IsRepo name :=
    ⟨isName.nonempty, isName.no_slash, isName.no_colon, isName.no_bracket⟩
  have rendered : l.getCanonicalPackage.value = render name names := by
    refine (packageValue_eq valid components value_eq).trans (congrArg ('@' :: '@' :: name ++ ·) ?_)
    simp [renderPath, renderTarget]
  exact ⟨getCanonicalRepo_eq isRepo rendered, getPackagePath_eq isRepo rendered⟩

theorem relativePaths_eq :
    l.getRepoRelativePath = leading names ++ l.getTargetName ∧
      l.getExternalRelativePath = name ++ '/' :: (leading names ++ l.getTargetName) := by
  have isName := isRepoName_of_canonical valid
  have named := getTargetName_eq valid components value_eq
  have label : l.value.drop 2 = name ++ renderPath names target := value_eq ▸ rfl
  have colon : ':' ∉ name ++ '/' :: '/' :: join names := by
    simpa using ⟨isName.no_colon, colon_not_mem_join components⟩
  rw [getRepoRelativePath, getExternalRelativePath, label, leading]
  cases target with
  | some target =>
    have split := cut_append colon target
    by_cases empty : names = []
    · simp_all [renderPath_some, cut_append isName.no_slash, join]
    · have nonempty := join_ne_nil components empty
      simp_all [renderPath_some, cut_append isName.no_slash]
  | none =>
    by_cases empty : names = []
    · subst empty
      obtain rfl : l.getTargetName = name := some.inj named
      simp [renderPath, cut_of_not_mem isName.no_colon, cut_of_not_mem isName.no_slash]
    · have ends := getLast?_eq_some_getLast empty
      rw [none_or, implied_of_getLast? ends] at named
      simp [renderPath_none empty, cut_of_not_mem colon, cut_append isName.no_slash, empty,
        afterLast_package components ends, some.inj named]

theorem parent_mem_iff (package : ∀ name ∈ names, IsFileName name) {parts : List Text}
    (isParts : ∀ part ∈ parts, IsPathComponent part) (nonempty : parts ≠ [])
    (joined : l.getTargetName = join parts) :
    ['.', '.'] ∈ separatedParts l.value ↔ ['.', '.'] ∈ parts := by
  have isComponents : ∀ part ∈ parts, IsComponent part :=
    fun part member => (isParts part member).toIsComponent
  have named := getTargetName_eq valid components value_eq
  rw [value_eq, parent_mem_separatedParts_iff valid package]
  cases target with
  | some given =>
    obtain rfl : l.getTargetName = given := some.inj named
    simp [joined, separatedParts_join isComponents nonempty]
  | none =>
    -- The name is that of the package or the repo.
    have isFile : IsFileName l.getTargetName := by
      rw [none_or, implied, eq_comm, or_eq_some_iff] at named
      rcases named with last | ⟨-, root⟩
      · exact package _ (mem_of_getLast? last)
      · cases root
        exact isFileName_of_canonical valid
    have single : parts = [l.getTargetName] := by
      rw [← components_join isComponents, ← joined]
      exact components_of_not_mem isFile.toIsComponent
    simpa [single] using isFile.ne_parent.symm

end

/-- Paths consist of the repo, the path of the package and the name of the target. They lead below
the directory of the repo and the name can be split if and only if the label does not contain `..`
between separators. -/
theorem relativePaths_iff (s : Text) (accepted : newCanonicalLabel s = .ok l) :
    l.getRepoRelativePath =
      (if l.getCanonicalPackage.getPackagePath = [] then l.getTargetName
        else l.getCanonicalPackage.getPackagePath ++ '/' :: l.getTargetName) ∧
    l.getExternalRelativePath =
      l.getCanonicalPackage.getCanonicalRepo ++ '/' :: l.getRepoRelativePath ∧
    ((toComponents l.getTargetName).isSome ↔ ['.', '.'] ∉ separatedParts l.value) ∧
    ((∀ name ∈ components l.getTargetName, name ≠ ['.'] ∧ name ≠ ['.', '.']) ∧
        LeadsBelow [] l.getRepoRelativePath ∧
        LeadsBelow [l.getCanonicalPackage.getCanonicalRepo] l.getExternalRelativePath ∧
        (toComponents l.getTargetName).isSome ↔
      ['.', '.'] ∉ separatedParts l.value) := by
  obtain ⟨value_eq, d, name, canonical, denotes⟩ := exists_denotes_of_newCanonicalLabel accepted
  rw [denotes.removeLabelTargetNameIfRedundant (by rw [canonical]; nofun)] at value_eq
  obtain ⟨parts, nonempty, isParts, joined⟩ := exists_target_eq_join denotes canonical
  rw [← getTargetName_of_spelling denotes canonical value_eq] at joined
  have isPackage := denotes.2.choose_spec.1.names
  have isComponent := denotes.2.choose_spec.1.isComponent
  have valid := canonical ▸ denotes.1
  rw [Meaning.spelling, canonical] at value_eq
  obtain ⟨repo_eq, path_eq⟩ := package_eq valid isComponent value_eq
  obtain ⟨relative, external⟩ := relativePaths_eq valid isComponent value_eq
  have parent_iff := parent_mem_iff valid isComponent value_eq
    (fun part member => (isPackage part member).isFileName) isParts nonempty joined
  have split : components (join parts) = parts :=
    components_join fun part member => (isParts part member).toIsComponent
  have inner := @components_leading_append d.package isComponent (join parts)
  have outer := components_append (isFileName_of_canonical valid).toIsComponent
    (leading d.package ++ join parts)
  rw [split] at inner
  rw [inner] at outer
  rw [relative, external, repo_eq, path_eq, parent_iff, joined, split,
    toComponents_join isParts nonempty]
  refine ⟨?_, rfl, by simp, fun contained member => (contained.1 _ member).2 rfl, ?_⟩
  · by_cases empty : d.package = []
    · simp [leading, empty, join]
    · simp [leading, empty, join_ne_nil isComponent empty]
  · intro noParent
    have isFile : ∀ part ∈ parts, IsFileName part := fun part member =>
      ⟨isParts part member, fun parent => noParent (parent ▸ member)⟩
    have isPath : ∀ part ∈ d.package ++ parts, IsFileName part :=
      forall_mem_append.mpr ⟨fun part member => (isPackage part member).isFileName, isFile⟩
    have continued := append_ne_nil_of_right_ne_nil d.package nonempty
    refine ⟨fun part member => ⟨(isFile part member).ne_dot, (isFile part member).ne_parent⟩,
      ⟨_, continued, ?_⟩, ⟨_, continued, ?_⟩, by simp [noParent]⟩
    · rw [inner]
      exact foldlM_enter isPath []
    · rw [outer]
      exact foldlM_enter (forall_mem_cons.mpr ⟨isFileName_of_canonical valid, isPath⟩) []

theorem exists_newCanonicalLabel (matched : Matches validCanonicalLabelPattern name) :
    ∃ l, newCanonicalLabel name = .ok l ∧ l.value = removeLabelTargetNameIfRedundant name :=
  ⟨_, dif_pos matched, rfl⟩

/-- The name of a target may consist of three dots. -/
theorem relativePaths_iff_of_dots :
    ∃ l, newCanonicalLabel "@@a+//b:c/...".toList = .ok l ∧ (toComponents l.getTargetName).isSome ∧
      LeadsBelow [] l.getRepoRelativePath ∧ ['.', '.'] ∉ separatedParts l.value := by
  obtain ⟨l, accepted, value_eq⟩ :=
    @exists_newCanonicalLabel "@@a+//b:c/...".toList (by decide +kernel)
  have contained : ['.', '.'] ∉ separatedParts l.value := by
    rw [value_eq]
    decide +kernel
  obtain ⟨-, -, splits, leads⟩ := relativePaths_iff _ accepted
  exact ⟨l, accepted, splits.mpr contained, (leads.mpr contained).2.1, contained⟩

/-- The parent of the repo's directory is accepted as a target. Its name cannot be split. -/
theorem newCanonicalLabel_accepts_parent :
    ∃ l, newCanonicalLabel "@@a+//:..".toList = .ok l ∧ l.getTargetName = "..".toList ∧
      l.getExternalRelativePath = "a+/..".toList ∧
      ¬ LeadsBelow ["a+".toList] l.getExternalRelativePath ∧
      toComponents l.getTargetName = none := by
  obtain ⟨l, accepted, value_eq⟩ := @exists_newCanonicalLabel "@@a+//:..".toList (by decide +kernel)
  have named : l.getTargetName = "..".toList := by
    rw [getTargetName, value_eq]
    rfl
  have path : l.getExternalRelativePath = "a+/..".toList := by
    rw [getExternalRelativePath, value_eq]
    rfl
  refine ⟨l, accepted, named, path, ?_, ?_⟩
  · rintro ⟨names, -, reached⟩
    rw [path] at reached
    cases reached
  · rw [named]
    decide +kernel

end Bonanza.Label
