import Bonanza.Label.TargetPattern

/-! # Construction of labels and target patterns from packages and repos

Labels and target patterns may be given relative to a package (`AppendLabel`,
`AppendTargetPattern`), and apparent repos may be replaced by canonical ones
(`WithCanonicalRepo`). The results are valid, even though they are not validated
(`construction_closed`). The only exception is the name of a target that is mistaken for a
recursive target pattern.
-/

namespace Bonanza.Label

open List Regex Repo CanonicalPackage

/-- A target pattern whose repo is yet to be resolved. -/
structure ApparentTargetPattern where
  value : Text
  deriving DecidableEq, Repr

/-- Bring a valid target pattern into normal form. -/
def newValidApparentTargetPattern (value : Text) : ApparentTargetPattern :=
  ⟨removeTargetPatternTargetNameIfRedundant value⟩

/-- Create a target pattern from a text. -/
def newApparentTargetPattern (value : Text) : Except InvalidText ApparentTargetPattern :=
  validate validApparentTargetPatternPattern .apparentTargetPattern value fun _ =>
    newValidApparentTargetPattern value

namespace CanonicalPackage

/-- `CanonicalPackage.concatenateApparentOrAbsolute`. It panics if the text is neither
apparent nor absolute. -/
def concatenateApparentOrAbsolute (p : CanonicalPackage) (value : Text) : Option Text :=
  match value.head? with
  | some '@' => some value
  | some '/' =>
    match cut '/' p.value with
    | some (repo, _) => some (repo ++ value)
    | none => some (p.value ++ value)
  | _ => none

/-- Append a relative label or target pattern to a package. -/
def concatenateRelative (p : CanonicalPackage) (value : Text) (forceHasPackage : Bool) : Text :=
  let midfix : Text :=
    if forceHasPackage ∨ ':' ∈ value then
      if '/' ∉ p.value then ['/', '/'] else if value.head? ≠ some ':' then ['/'] else []
    else if '/' ∉ p.value then ['/', '/', ':'] else [':']
  p.value ++ midfix ++ value

/-- Interpret a label relative to a package. -/
def appendLabel (p : CanonicalPackage) (value : Text) : Except InvalidText ApparentLabel :=
  if Matches validApparentOrAbsoluteLabelPattern value then
    match p.concatenateApparentOrAbsolute value with
    | some label => .ok (newValidApparentLabel label)
    | none => .error .crash
  else if Matches validRelativeTargetNameLabelPattern value then
    .ok (newValidApparentLabel (p.concatenateRelative value false))
  else .error .label

/-- Interpret a target pattern relative to a package. -/
def appendTargetPattern (p : CanonicalPackage) (value : Text) :
    Except InvalidText ApparentTargetPattern :=
  if Matches validApparentOrAbsoluteTargetPatternPattern value then
    match p.concatenateApparentOrAbsolute value with
    | some targetPattern => .ok (newValidApparentTargetPattern targetPattern)
    | none => .error .crash
  else if Matches validRelativeTargetNameTargetPatternPattern value then
    let forceHasPackage := value = "...".toList ∨ hasSuffix value "/..."
    .ok (newValidApparentTargetPattern (p.concatenateRelative value forceHasPackage))
  else .error .targetPattern

end CanonicalPackage

/-- Replace the repo of a label or target pattern. -/
def applyToLabelOrTargetPattern (canonicalRepo value : Text) : Text :=
  match cut '/' value with
  | some (_ :: _, rest) => '@' :: '@' :: (canonicalRepo ++ '/' :: rest)
  | _ => '@' :: '@' :: (canonicalRepo ++ '/' :: '/' :: ':' :: trimLeftAt value)

/-- The value of `ApparentLabel.WithCanonicalRepo`. -/
def ApparentLabel.withCanonicalRepo (l : ApparentLabel) (canonicalRepo : Text) : Text :=
  removeLabelTargetNameIfRedundant (applyToLabelOrTargetPattern canonicalRepo l.value)

/-- The value of `ApparentTargetPattern.WithCanonicalRepo`. -/
def ApparentTargetPattern.withCanonicalRepo (tp : ApparentTargetPattern) (canonicalRepo : Text) :
    Text :=
  removeTargetPatternTargetNameIfRedundant (applyToLabelOrTargetPattern canonicalRepo tp.value)

variable {text v : Text} {repo : Repo} {names : List Text} {target : Option Text}
  {path : List Text → Option Text → Prop} {l : ApparentLabel} {tp : ApparentTargetPattern}
  {c : Char} {s canonicalRepo : Text} {name : Text}

/-! ## Apparent labels and target patterns -/

/-- A repo that is not an error message, followed by a valid path, which is not empty if the repo
has no name. -/
def Rendered (path : List Text → Option Text → Prop) (text : Text) : Prop :=
  ∃ (repo : Repo) (names : List Text) (target : Option Text), repo.Valid ∧
    (∀ message, repo ≠ .unresolved message) ∧ path names target ∧
    (repo = .main → ¬(names = [] ∧ target = none)) ∧ text = repo.head ++ renderPath names target

theorem Rendered.mono {other : List Text → Option Text → Prop} (rendered : Rendered path text)
    (imp : ∀ names target, path names target → other names target) : Rendered other text := by
  obtain ⟨repo, names, target, valid, resolved, holds, rest⟩ := rendered
  exact ⟨repo, names, target, valid, resolved, imp _ _ holds, rest⟩

theorem matches_apparent_iff {maybe absolute : Pattern} {path : List Text → Option Text → Prop}
    (maybe_iff : ∀ {text}, Matches maybe text ↔ ∃ names target, path names target ∧
      text = renderPath names target)
    (absolute_iff : ∀ {text}, Matches absolute text ↔ ∃ names target,
      ¬(names = [] ∧ target = none) ∧ path names target ∧ text = renderPath names target) :
    Matches (alt (seq validApparentOrCanonicalRepoPattern maybe) (seq (exactly "@@") absolute))
      text ↔ Rendered path text := by
  simp only [validApparentOrCanonicalRepoPattern, exactly, matches_alt_iff, matches_seq_iff,
    matches_literal_iff, maybe_iff, absolute_iff]
  constructor
  · rintro (⟨_, _, ⟨_, _, rfl, name | ⟨_, name, rfl, valid, rfl⟩, rfl⟩, ⟨names, target, path, rfl⟩,
      rfl⟩ | ⟨_, _, rfl, ⟨names, target, present, path, rfl⟩, rfl⟩)
    · exact ⟨.apparent _, names, target, name, by rintro _ ⟨⟩, path, by rintro ⟨⟩, rfl⟩
    · exact ⟨.canonical name, names, target, valid, by rintro _ ⟨⟩, path, by rintro ⟨⟩, rfl⟩
    · exact ⟨.main, names, target, trivial, by rintro _ ⟨⟩, path, fun _ => present, rfl⟩
  · rintro ⟨repo, names, target, valid, resolved, path, present, rfl⟩
    cases repo with
    | apparent name =>
      exact .inl ⟨_, _, ⟨['@'], _, rfl, .inl valid, rfl⟩, ⟨names, target, path, rfl⟩, rfl⟩
    | canonical name =>
      exact .inl ⟨_, _, ⟨['@'], _, rfl, .inr ⟨['@'], name, rfl, valid, rfl⟩, rfl⟩,
        ⟨names, target, path, rfl⟩, rfl⟩
    | main => exact .inr ⟨_, _, rfl, ⟨names, target, present rfl, path, rfl⟩, rfl⟩
    | unresolved message => exact absurd rfl (resolved message)

theorem matches_validApparentLabelPattern_iff :
    Matches validApparentLabelPattern text ↔ Rendered ValidPath text :=
  matches_apparent_iff matches_validMaybeAbsoluteLabelPattern_iff
    matches_validAbsoluteLabelPattern_iff

theorem matches_validApparentTargetPatternPattern_iff :
    Matches validApparentTargetPatternPattern text ↔ Rendered ValidPatternPath text :=
  matches_apparent_iff matches_validMaybeAbsoluteTargetPatternPattern_iff
    matches_validAbsoluteTargetPatternPattern_iff

theorem rendered_validPath_iff :
    Rendered ValidPath text ↔ ∃ d, Denotes text d ∧ ∀ message, d.repo ≠ .unresolved message := by
  constructor
  · rintro ⟨repo, names, target, valid, resolved, path, present, rfl⟩
    have implied : target ≠ none ∨ repo.implied names ≠ none := by
      cases repo with
      | main => exact implied_ne_none (present rfl)
      | unresolved message => exact absurd rfl (resolved message)
      | _ =>
        right
        rw [implied, ne_eq, Option.or_eq_none_iff]
        exact fun both => Option.some_ne_none _ both.2
    obtain ⟨d, rfl, denotes⟩ := exists_denotes valid path implied
    exact ⟨d, denotes, resolved⟩
  · rintro ⟨d, ⟨valid, target, path, named, rfl⟩, resolved⟩
    refine ⟨d.repo, d.package, target, valid, resolved, path, fun main => ?_, rfl⟩
    exact Denotes.present named (main ▸ rfl)

theorem newApparentLabel_of_rendered (rendered : Rendered ValidPath text) :
    newApparentLabel (newValidApparentLabel text).value = .ok (newValidApparentLabel text) := by
  obtain ⟨d, denotes, resolved⟩ := rendered_validPath_iff.mp rendered
  rw [newApparentLabel, validate_eq_ok_iff]
  refine ⟨?_, congrArg ApparentLabel.mk denotes.removeLabelTargetNameIfRedundant_idem⟩
  exact matches_validApparentLabelPattern_iff.mpr
    (rendered_validPath_iff.mpr ⟨d, denotes.removed, resolved⟩)

/-! ## Target patterns -/

theorem ValidPatternPath.ne_some_nil (path : ValidPatternPath names target) : target ≠ some [] := by
  rcases path with path | path
  · exact path.ne_some_nil
  · rintro rfl
    exact absurd (path.target [] rfl) (by decide)

/-- The name of a target is either kept, removed or shortened. -/
theorem dropPatternTarget_eq_or (implied target : Option Text) :
    dropPatternTarget implied target = target ∨ dropPatternTarget implied target = none ∨
      dropPatternTarget implied target = some "*".toList := by
  rw [dropPatternTarget, dropImplied]
  split_ifs
  · exact .inr (.inl rfl)
  · exact .inl rfl
  · exact .inr (.inr rfl)
  · exact .inl rfl
  · exact .inl rfl
  · exact .inr (.inl rfl)
  · exact .inl rfl

theorem dropPatternTarget_idem (implied target : Option Text) :
    dropPatternTarget implied (dropPatternTarget implied target) =
      dropPatternTarget implied target := by
  rcases dropPatternTarget_eq_or implied target with same | same | same
  · rw [same, same]
  · rw [same, dropPatternTarget_none]
  · rw [same, dropPatternTarget, if_neg (by decide), if_neg (by decide), if_pos rfl]

theorem isTargetName_star : IsTargetName "*".toList :=
  ⟨["*".toList], by decide, forall_mem_singleton.mpr (.inl
    ⟨forall_mem_singleton.mpr (by decide), '*', by decide, by decide⟩), rfl⟩

theorem ValidPatternPath.dropPatternTarget (path : ValidPatternPath names target)
    (implied : Option Text) : ValidPatternPath names (dropPatternTarget implied target) := by
  rcases dropPatternTarget_eq_or implied target with same | same | same
  · rwa [same]
  · rw [same]
    rcases path with path | path
    · exact .inl ⟨path.names, nofun⟩
    · exact .inr ⟨path.names, nofun⟩
  · rw [same]
    rcases path with path | path
    · refine .inl ⟨path.names, ?_⟩
      rintro name ⟨⟩
      exact isTargetName_star
    · refine .inr ⟨path.names, ?_⟩
      rintro name ⟨⟩
      decide

theorem dropPatternTarget_none_some (name : Text) :
    dropPatternTarget none (some name) = some name := by
  by_cases wildcard : name ∈ wildcards
  · exact dropPatternTarget_of_wildcard (by rintro ⟨⟩) wildcard
  · rw [dropPatternTarget_of_not_wildcard wildcard, dropImplied, if_neg (Option.some_ne_none _)]

theorem present_dropPatternTarget (present : repo = .main → ¬(names = [] ∧ target = none)) :
    repo = .main → ¬(names = [] ∧ dropPatternTarget (repo.implied names) target = none) := by
  rintro rfl ⟨rfl, absent⟩
  cases target with
  | none => exact present rfl ⟨rfl, rfl⟩
  | some name => exact nomatch (dropPatternTarget_none_some name).symm.trans absent

theorem Rendered.removeTargetPatternTargetNameIfRedundant
    (rendered : Rendered ValidPatternPath text) :
    Rendered ValidPatternPath (removeTargetPatternTargetNameIfRedundant text) ∧
      removeTargetPatternTargetNameIfRedundant (removeTargetPatternTargetNameIfRedundant text) =
        removeTargetPatternTargetNameIfRedundant text := by
  obtain ⟨repo, names, target, valid, resolved, path, present, rfl⟩ := rendered
  rw [removeTargetPatternTargetNameIfRedundant_eq valid resolved path.isComponent path.ne_some_nil]
  have path' := path.dropPatternTarget (repo.implied names)
  refine ⟨⟨repo, names, _, valid, resolved, path', present_dropPatternTarget present, rfl⟩, ?_⟩
  · rw [removeTargetPatternTargetNameIfRedundant_eq valid resolved path'.isComponent
      path'.ne_some_nil, dropPatternTarget_idem]

theorem newApparentTargetPattern_of_rendered (rendered : Rendered ValidPatternPath text) :
    newApparentTargetPattern (newValidApparentTargetPattern text).value =
      .ok (newValidApparentTargetPattern text) := by
  obtain ⟨removed, idem⟩ := rendered.removeTargetPatternTargetNameIfRedundant
  rw [newApparentTargetPattern, validate_eq_ok_iff]
  exact ⟨matches_validApparentTargetPatternPattern_iff.mpr removed,
    congrArg ApparentTargetPattern.mk idem⟩

/-! ## Appending to packages -/

theorem matches_validRelativeTargetNameLabelPattern_iff :
    Matches validRelativeTargetNameLabelPattern v ↔
      (∃ names target, (∀ name ∈ names, IsPackageComponent name) ∧ IsTargetName target ∧
        v = join names ++ ':' :: target) ∨ IsTargetName v := by
  simp only [validRelativeTargetNameLabelPattern, exactly, matches_seq_iff, matches_optional_iff,
    matches_literal_iff, matches_validNonEmptyPackageNamePattern_iff,
    matches_validTargetNamePattern_iff]
  constructor
  · rintro ⟨_, target, ⟨_, _, ⟨names, _, each, rfl⟩ | rfl, rfl, rfl⟩ | rfl, valid, rfl⟩
    · refine .inl ⟨names, target, each, valid, ?_⟩
      rw [append_assoc]
      rfl
    · exact .inl ⟨[], target, forall_mem_nil _, valid, rfl⟩
    · exact .inr valid
  · rintro (⟨names, target, each, valid, rfl⟩ | valid)
    · refine ⟨join names ++ [':'], target, .inl ⟨join names, [':'], ?_, rfl, rfl⟩, valid, by simp⟩
      by_cases empty : names = []
      · subst empty
        exact .inr rfl
      · exact .inl ⟨names, empty, each, rfl⟩
    · exact ⟨[], v, .inr rfl, valid, rfl⟩

theorem renderPath_nil_none : renderPath [] none = [] := rfl

section

variable {p : CanonicalPackage} {name : Text} {base : List Text}
  (valid : (Repo.canonical name).Valid)
  (value_eq : p.value = (Repo.canonical name).head ++ renderPath base none)

include valid value_eq

theorem slash_mem_package_iff : '/' ∈ p.value ↔ base ≠ [] := by
  have slash := @slash_not_mem_head (.canonical name) valid nofun
  rw [value_eq]
  by_cases empty : base = []
  · subst empty
    rw [renderPath_nil_none, append_nil]
    exact iff_of_false slash (not_not.mpr rfl)
  · rw [renderPath_none empty]
    exact iff_of_true (mem_append_right _ mem_cons_self) empty

theorem cut_package_eq :
    (match cut '/' p.value with
      | some (repo, _) => some (repo ++ v)
      | none => some (p.value ++ v)) = some ((canonical name).head ++ v) := by
  have slash := @slash_not_mem_head (.canonical name) valid nofun
  rw [value_eq]
  by_cases empty : base = []
  · subst empty
    rw [renderPath_nil_none, append_nil, cut_of_not_mem slash]
  · rw [renderPath_none empty, cut_append slash]

theorem concatenateRelative_bare (colon : ':' ∉ v) :
    p.concatenateRelative v false = (canonical name).head ++ renderPath base (some v) := by
  have slash := slash_mem_package_iff valid value_eq
  rw [concatenateRelative]
  simp only [slash, colon, or_false, Bool.false_eq_true, if_false]
  rw [value_eq]
  by_cases empty : base = []
  · subst empty
    simp [renderPath_some, renderPath_nil_none, join]
  · simp [empty, renderPath_some, renderPath_none empty]

theorem concatenateRelative_path (components : ∀ name ∈ names, IsComponent name)
    (present : ¬(names = [] ∧ target = none)) {force : Bool}
    (forced : force = true ∨ target ≠ none) :
    p.concatenateRelative (join names ++ renderTarget target) force =
      (canonical name).head ++ renderPath (base ++ names) target := by
  have slash := slash_mem_package_iff valid value_eq
  have forced : force = true ∨ ':' ∈ join names ++ renderTarget target := by
    refine forced.imp_right fun given => ?_
    obtain ⟨target, rfl⟩ := Option.ne_none_iff_exists'.mp given
    exact mem_append_right _ mem_cons_self
  have colon : (join names ++ renderTarget target).head? ≠ some ':' ↔ names ≠ [] := by
    by_cases bare : names = []
    · subst bare
      cases target with
      | none => exact absurd ⟨rfl, rfl⟩ present
      | some target => exact iff_of_false (not_not.mpr rfl) (not_not.mpr rfl)
    · refine iff_of_true ?_ bare
      have absent := colon_not_mem_join components
      obtain ⟨c, rest, joined⟩ := exists_cons_of_ne_nil (join_ne_nil components bare)
      rw [joined] at absent ⊢
      rintro ⟨⟩
      exact absent mem_cons_self
  have present' : ¬(base ++ names = [] ∧ target = none) := by
    rintro ⟨empty, absent⟩
    exact present ⟨(append_eq_nil_iff.mp empty).2, absent⟩
  rw [concatenateRelative]
  simp only [slash, if_pos forced, colon]
  rw [value_eq, renderPath_of_not present']
  by_cases empty : base = []
  · subst empty
    simp [renderPath_nil_none]
  rw [renderPath_none empty]
  by_cases bare : names = []
  · subst bare
    simp [empty, join]
  · rw [join_append empty bare]
    simp [empty, bare]

theorem concatenateApparentOrAbsolute_rendered {path : List Text → Option Text → Prop}
    (either : Rendered path v ∨ ∃ names target, ¬(names = [] ∧ target = none) ∧ path names target ∧
      v = renderPath names target) :
    ∃ text, p.concatenateApparentOrAbsolute v = some text ∧ Rendered path text := by
  rcases either with rendered | ⟨names, target, present, path, rfl⟩
  · refine ⟨v, ?_, rendered⟩
    obtain ⟨repo, names, target, _, _, _, _, rfl⟩ := rendered
    cases repo <;> rfl
  refine ⟨(canonical name).head ++ renderPath names target, ?_,
    .canonical name, names, target, valid, nofun, path, nofun, rfl⟩
  have slash : (renderPath names target).head? = some '/' := by
    rw [renderPath_of_not present]
    rfl
  rw [concatenateApparentOrAbsolute, slash]
  exact cut_package_eq valid value_eq

variable (each : ∀ name ∈ base, IsPackageComponent name)

include each

theorem concatenateRelative_label (relative : Matches validRelativeTargetNameLabelPattern v)
    {force : Bool} (forced : force = true → ':' ∈ v) :
    Rendered ValidPath (p.concatenateRelative v force) := by
  rcases matches_validRelativeTargetNameLabelPattern_iff.mp relative with
    ⟨names, target, others, named, rfl⟩ | named
  · have concatenated := @concatenateRelative_path names (some target) _ _ _ valid value_eq
      (fun name member => (others name member).isComponent) nofun force (.inr nofun)
    rw [renderTarget] at concatenated
    rw [concatenated]
    refine ⟨.canonical name, base ++ names, some target, valid, nofun,
      ⟨forall_mem_append.mpr ⟨each, others⟩, ?_⟩, nofun, rfl⟩
    rintro _ ⟨⟩
    exact named
  · cases Bool.eq_false_iff.mpr fun given => named.no_colon (forced given)
    rw [concatenateRelative_bare valid value_eq named.no_colon]
    refine ⟨.canonical name, base, some v, valid, nofun, ⟨each, ?_⟩, nofun, rfl⟩
    rintro _ ⟨⟩
    exact named

theorem appendLabel_rendered (appended : p.appendLabel v = .ok l) :
    ∃ text, l = newValidApparentLabel text ∧ Rendered ValidPath text := by
  rw [appendLabel] at appended
  split_ifs at appended with either relative
  · rw [validApparentOrAbsoluteLabelPattern, matches_alt_iff,
      matches_validApparentLabelPattern_iff, matches_validAbsoluteLabelPattern_iff] at either
    obtain ⟨text, concatenated, rendered⟩ :=
      concatenateApparentOrAbsolute_rendered valid value_eq either
    rw [concatenated] at appended
    cases appended
    exact ⟨text, rfl, rendered⟩
  · cases appended
    exact ⟨_, rfl, concatenateRelative_label valid value_eq each relative nofun⟩

/-- The text is only accepted as the name of a target, but ends like a recursive target pattern. -/
def NameEndsWithEllipsis (v : Text) : Prop :=
  ¬Matches validApparentOrAbsoluteTargetPatternPattern v ∧
    ¬Matches validRelativeRecursiveTargetPatternPattern v ∧ ':' ∉ v ∧ hasSuffix v "/..."

omit valid value_eq each in
/-- Recursive target patterns without a wildcard end with the component for all packages. -/
theorem ValidRecursivePath.forces (path : ValidRecursivePath names none) :
    join names = "...".toList ∨ hasSuffix (join names) "/..." := by
  obtain ⟨base, _, rfl⟩ := path.names
  by_cases empty : base = []
  · subst empty
    exact .inl rfl
  · right
    rw [join_append empty (cons_ne_nil _ _)]
    exact suffix_append _ _

theorem concatenateRelative_recursive
    (recursive : Matches validRelativeRecursiveTargetPatternPattern v) :
    Rendered ValidPatternPath (p.concatenateRelative v
      (decide (v = "...".toList ∨ hasSuffix v "/..."))) := by
  obtain ⟨names, target, path, rfl⟩ :=
    matches_validRelativeRecursiveTargetPatternPattern_iff.mp recursive
  have components := ValidPatternPath.isComponent (.inr path)
  have forced : decide (join names ++ renderTarget target = "...".toList ∨
      hasSuffix (join names ++ renderTarget target) "/...") = true ∨ target ≠ none := by
    cases target with
    | some target => exact .inr nofun
    | none =>
      left
      rw [renderTarget, append_nil, decide_eq_true_eq]
      exact path.forces
  rw [concatenateRelative_path valid value_eq components (fun both => path.ne_nil both.1) forced]
  refine ⟨.canonical name, base ++ names, target, valid, nofun, .inr ⟨?_, path.target⟩, nofun, rfl⟩
  obtain ⟨inner, others, rfl⟩ := path.names
  exact ⟨base ++ inner, forall_mem_append.mpr ⟨each, others⟩, (append_assoc _ _ _).symm⟩

omit value_eq in
/-- A path with a component that consists of dots is only part of a target pattern as the last. -/
theorem not_rendered_of_bare (components : ∀ name ∈ names, IsComponent name) (nonempty : names ≠ [])
    (other : ¬Matches validRelativeRecursiveTargetPatternPattern (join names))
    (ends : hasSuffix (join names) "/...") :
    ¬Rendered ValidPatternPath ((canonical name).head ++ renderPath (base ++ names) none) := by
  have whole : ∀ name ∈ base ++ names, IsComponent name :=
    forall_mem_append.mpr ⟨fun name member => (each name member).isComponent, components⟩
  rintro ⟨repo, names', target, valid', _, path, _, same⟩
  obtain ⟨_, rfl, rfl⟩ := label_injective valid valid' whole path.isComponent same
  have last : names.getLast? = some ellipsis :=
    (@ellipsis_suffix_package_iff names components []).mp (ends.trans ⟨['/', '/'], rfl⟩)
  obtain ⟨init, rfl⟩ := getLast?_eq_some_iff.mp last
  rcases path with path | path
  · refine path.getLast?_ne_ellipsis ?_
    rw [← append_assoc, getLast?_concat]
  obtain ⟨inner, others, split⟩ := path.names
  rw [← append_assoc] at split
  obtain ⟨rfl, _⟩ := append_inj' split rfl
  refine other (matches_validRelativeRecursiveTargetPatternPattern_iff.mpr
    ⟨init ++ [ellipsis], none, ⟨⟨init, ?_, rfl⟩, nofun⟩, (append_nil _).symm⟩)
  exact fun name member => others name (mem_append_right _ member)

/-- Target patterns appended to a package are valid, except if the name of a target was taken for a
recursive target pattern. -/
theorem appendTargetPattern_eq_iff (appended : p.appendTargetPattern v = .ok tp) :
    newApparentTargetPattern tp.value = .ok tp ↔ ¬NameEndsWithEllipsis v := by
  rw [appendTargetPattern] at appended
  split_ifs at appended with either relative
  · have either' := either
    rw [validApparentOrAbsoluteTargetPatternPattern, matches_alt_iff,
      matches_validApparentTargetPatternPattern_iff,
      matches_validAbsoluteTargetPatternPattern_iff] at either'
    obtain ⟨text, concatenated, rendered⟩ :=
      concatenateApparentOrAbsolute_rendered valid value_eq either'
    rw [concatenated] at appended
    cases appended
    exact iff_of_true (newApparentTargetPattern_of_rendered rendered) fun bad => bad.1 either
  · cases appended
    by_cases recursive : Matches validRelativeRecursiveTargetPatternPattern v
    · exact iff_of_true (newApparentTargetPattern_of_rendered
        (concatenateRelative_recursive valid value_eq each recursive)) fun bad => bad.2.1 recursive
    rw [validRelativeTargetNameTargetPatternPattern, matches_alt_iff, or_iff_left recursive]
      at relative
    by_cases bad : NameEndsWithEllipsis v
    · refine iff_of_false ?_ (not_not.mpr bad)
      obtain ⟨-, -, colon, ends⟩ := bad
      have named := (matches_validRelativeTargetNameLabelPattern_iff.mp relative).resolve_left
        fun ⟨_, _, _, _, same⟩ => colon (same ▸ mem_append_right _ mem_cons_self)
      obtain ⟨names, nonempty, others, rfl⟩ := named
      have components := fun name member => (others name member).isComponent
      have concatenated := @concatenateRelative_path names none _ _ _ valid value_eq components
        (fun both => nonempty both.1) true (.inl rfl)
      rw [renderTarget, append_nil] at concatenated
      have whole : ∀ name ∈ base ++ names, IsComponent name :=
        forall_mem_append.mpr ⟨fun name member => (each name member).isComponent, components⟩
      have unchanged := @removeTargetPatternTargetNameIfRedundant_eq (.canonical name) _ none
        valid nofun whole nofun
      rw [dropPatternTarget_none] at unchanged
      rw [decide_eq_true (.inr ends), concatenated, newValidApparentTargetPattern, unchanged,
        newApparentTargetPattern, validate_eq_ok_iff]
      rintro ⟨matched, _⟩
      exact not_rendered_of_bare valid each components nonempty recursive ends
        (matches_validApparentTargetPatternPattern_iff.mp matched)
    · refine iff_of_true (newApparentTargetPattern_of_rendered ((concatenateRelative_label valid
        value_eq each relative fun forced => ?_).mono fun _ _ => .inl)) bad
      by_contra colon
      exact bad ⟨either, recursive, colon, (decide_eq_true_iff.mp forced).resolve_left fun alone =>
        recursive (alone ▸ isMatch_iff.mp (by decide))⟩

end

/-! ## Replacing the repo -/

theorem forall_isNameCharacter {pattern : Pattern} (matched : Matches pattern name)
    (avoided : (range 128).all fun n =>
      isNameCharacter (Char.ofNat n) || avoids (Char.ofNat n) pattern) :
    ∀ c ∈ name, isNameCharacter c := by
  intro c member
  by_contra reserved
  have small : c.toNat < 128 := by
    by_contra large
    refine reserved ?_
    have other : ∀ d : Char, d.toNat < 128 → c ≠ d := by
      rintro d less rfl
      exact large less
    have printable : isControl c = false := by
      simp only [isControl, Bool.or_eq_false_iff, decide_eq_false_iff_not, beq_eq_false_iff_ne]
      omega
    simp [isNameCharacter, printable, other '/', other ':', other '\\']
  have avoids := all_eq_true.mp avoided c.toNat (mem_range.mpr small)
  rw [Char.ofNat_toNat, Bool.or_eq_true] at avoids
  exact matched.not_mem (avoids.resolve_left reserved) member

theorem isTargetName_of_characters (characters : ∀ c ∈ name, isNameCharacter c)
    (notDots : ∃ c ∈ name, c ≠ '.') : IsTargetName name :=
  ⟨[name], cons_ne_nil _ _, forall_mem_singleton.mpr (.inl ⟨characters, notDots⟩), rfl⟩

theorem isTargetName_of_apparent (valid : Matches validApparentRepoPattern name) :
    IsTargetName name := by
  refine isTargetName_of_characters (forall_isNameCharacter valid (by decide +kernel)) ?_
  rw [validApparentRepoPattern, matches_alt_iff, matches_seq_iff] at valid
  rcases valid with ⟨_, _, first, _, rfl⟩ | other
  · obtain ⟨c, letter, rfl⟩ := matches_satisfying_iff.mp first
    refine ⟨c, mem_cons_self, ?_⟩
    rintro rfl
    exact absurd letter (by decide)
  · rw [matches_literal_iff.mp other]
    exact ⟨'b', by decide, by decide⟩

theorem isTargetName_of_canonical (valid : Matches validCanonicalRepoPattern name) :
    IsTargetName name := by
  refine isTargetName_of_characters (forall_isNameCharacter valid (by decide +kernel)) ?_
  rw [validCanonicalRepoPattern, matches_seq_iff] at valid
  obtain ⟨_, _, first, _, rfl⟩ := valid
  rw [validModuleInstancePattern, matches_seq_iff] at first
  obtain ⟨_, _, _, rest, rfl⟩ := first
  rw [matches_literal_seq_iff] at rest
  obtain ⟨_, _, rfl⟩ := rest
  refine ⟨'+', ?_, by decide⟩
  exact mem_append_left _ (mem_append_right _ mem_cons_self)

theorem Repo.isTargetName (valid : repo.Valid) (named : repo.rootTarget = some name) :
    IsTargetName name := by
  cases repo with
  | apparent _ =>
    cases named
    exact isTargetName_of_apparent valid
  | canonical _ =>
    cases named
    exact isTargetName_of_canonical valid
  | main => cases named
  | unresolved _ => cases named

section

variable (valid : repo.Valid) (resolved : ∀ message, repo ≠ .unresolved message)
  (present : repo = .main → ¬(names = [] ∧ target = none))

/-- The name of the target after replacing the repo. If the path is empty, that is its name. -/
def replacedTarget (repo : Repo) (names : List Text) (target : Option Text) : Option Text :=
  if names = [] ∧ target = none then repo.rootTarget else target

include resolved present

theorem exists_rootTarget (absent : names = [] ∧ target = none) :
    ∃ name, repo.rootTarget = some name := by
  cases repo with
  | apparent name => exact ⟨name, rfl⟩
  | canonical name => exact ⟨name, rfl⟩
  | main => exact absurd absent (present rfl)
  | unresolved message => exact absurd rfl (resolved message)

theorem replacedTarget_or (canonicalRepo : Text) :
    (replacedTarget repo names target).or ((canonical canonicalRepo).implied names) =
      target.or (repo.implied names) := by
  rw [replacedTarget]
  by_cases absent : names = [] ∧ target = none
  · obtain ⟨name, named⟩ := exists_rootTarget resolved present absent
    rw [named]
    obtain ⟨rfl, rfl⟩ := absent
    exact named.symm
  · rw [if_neg absent]
    cases target with
    | some target => rfl
    | none =>
      have nonempty : names ≠ [] := fun empty => absent ⟨empty, rfl⟩
      have ends := getLast?_eq_some_getLast nonempty
      rw [implied_of_getLast? ends, implied_of_getLast? ends]

include valid

/-- Replacing the repo does not change the target. -/
theorem applyToLabelOrTargetPattern_eq (canonicalRepo : Text) :
    applyToLabelOrTargetPattern canonicalRepo (repo.head ++ renderPath names target) =
      (canonical canonicalRepo).head ++ renderPath names (replacedTarget repo names target) := by
  have slash := slash_not_mem_head valid resolved
  have first : ∃ rest, repo.head = '@' :: rest := by
    cases repo <;> exact ⟨_, rfl⟩
  rw [applyToLabelOrTargetPattern, replacedTarget]
  by_cases absent : names = [] ∧ target = none
  · obtain ⟨name, named⟩ := exists_rootTarget resolved present absent
    rw [if_pos absent, renderPath, if_pos absent, append_nil, cut_of_not_mem slash,
      trimLeftAt_head valid resolved, named, absent.1]
    rfl
  · rw [if_neg absent, renderPath_of_not absent, cut_append slash]
    obtain ⟨rest, head⟩ := first
    rw [head]
    rfl

omit resolved present in
theorem isTargetName_replacedTarget (path : ∀ name ∈ target, IsTargetName name) :
    ∀ name ∈ replacedTarget repo names target, IsTargetName name := by
  rw [replacedTarget]
  split_ifs with absent
  · exact fun name named => isTargetName valid named
  · exact path

end

theorem rendered_of_newApparentLabel (accepted : newApparentLabel s = .ok l) :
    Rendered ValidPath l.value := by
  obtain ⟨matched, rfl⟩ := validate_eq_ok_iff.mp accepted
  obtain ⟨d, denotes, resolved⟩ :=
    rendered_validPath_iff.mp (matches_validApparentLabelPattern_iff.mp matched)
  exact rendered_validPath_iff.mpr ⟨d, denotes.removed, resolved⟩

theorem withCanonicalRepo_denotes (rendered : Rendered ValidPath l.value)
    (canonical : (canonical canonicalRepo).Valid) :
    IsNormalLabel (l.withCanonicalRepo canonicalRepo) ∧
      ∃ d, Denotes l.value d ∧
        Denotes (l.withCanonicalRepo canonicalRepo)
          ⟨.canonical canonicalRepo, d.package, d.target⟩ := by
  obtain ⟨d, denotes, resolved⟩ := rendered_validPath_iff.mp rendered
  have denotes' : Denotes (applyToLabelOrTargetPattern canonicalRepo l.value)
      ⟨.canonical canonicalRepo, d.package, d.target⟩ := by
    obtain ⟨valid, target, path, named, value_eq⟩ := denotes
    have present : d.repo = .main → ¬(d.package = [] ∧ target = none) :=
      fun main => Denotes.present named (main ▸ rfl)
    refine ⟨canonical, _, ⟨path.names, ?_⟩, ?_, value_eq ▸ applyToLabelOrTargetPattern_eq valid
      resolved present canonicalRepo⟩
    · exact isTargetName_replacedTarget valid path.target
    · exact (replacedTarget_or resolved present canonicalRepo).trans named
  refine ⟨isNormalLabel_removed ?_, d, denotes, denotes'.removed⟩
  exact matches_validCanonicalLabelPattern_iff_denotes.mpr ⟨_, _, rfl, denotes'⟩

theorem dropPatternTarget_or {implied : Option Text} (other : implied ≠ some ellipsis) :
    (dropPatternTarget implied target).or implied = target.or implied := by
  cases target with
  | none => rw [dropPatternTarget_none]
  | some name =>
    by_cases wildcard : name ∈ wildcards
    · rw [dropPatternTarget_of_wildcard other wildcard]
    · rw [dropPatternTarget_of_not_wildcard wildcard, dropImplied]
      split_ifs with same
      · exact same.symm
      · rfl

/-- The target pattern has the same package and target as another one, but the given repo. -/
def SameInRepo (canonicalRepo text other : Text) : Prop :=
  ∃ (repo : Repo) (names : List Text) (target target' : Option Text),
    repo.Valid ∧ ValidPatternPath names target ∧ text = repo.head ++ renderPath names target ∧
    other = (Repo.canonical canonicalRepo).head ++ renderPath names target' ∧
    target'.or ((Repo.canonical canonicalRepo).implied names) = target.or (repo.implied names)

theorem withCanonicalRepo_rendered (accepted : newApparentTargetPattern s = .ok tp)
    (canonical : (Repo.canonical canonicalRepo).Valid) :
    newCanonicalTargetPattern (tp.withCanonicalRepo canonicalRepo) =
        .ok ⟨tp.withCanonicalRepo canonicalRepo⟩ ∧
      SameInRepo canonicalRepo tp.value (tp.withCanonicalRepo canonicalRepo) := by
  obtain ⟨matched, rfl⟩ := validate_eq_ok_iff.mp accepted
  obtain ⟨repo, names, given, valid, resolved, path, present, rfl⟩ :=
    matches_validApparentTargetPatternPattern_iff.mp matched
  have value_eq := removeTargetPatternTargetNameIfRedundant_eq valid resolved path.isComponent
    path.ne_some_nil
  have path := path.dropPatternTarget (repo.implied names)
  have present := present_dropPatternTarget present
  have kept := dropPatternTarget_idem (repo.implied names) given
  generalize dropPatternTarget (repo.implied names) given = target at value_eq path present kept
  have replaced : ValidPatternPath names (replacedTarget repo names target) := by
    rw [replacedTarget]
    split_ifs with absent
    · refine .inl ⟨?_, fun name named => Repo.isTargetName valid named⟩
      rw [absent.1]
      nofun
    · exact path
  have removed : (newValidApparentTargetPattern
        (repo.head ++ renderPath names given)).withCanonicalRepo canonicalRepo =
      (Repo.canonical canonicalRepo).head ++ renderPath names (dropPatternTarget
        ((Repo.canonical canonicalRepo).implied names) (replacedTarget repo names target)) := by
    rw [ApparentTargetPattern.withCanonicalRepo, newValidApparentTargetPattern, value_eq,
      applyToLabelOrTargetPattern_eq valid resolved present,
      removeTargetPatternTargetNameIfRedundant_eq canonical nofun replaced.isComponent
        replaced.ne_some_nil]
  have final := replaced.dropPatternTarget ((Repo.canonical canonicalRepo).implied names)
  refine ⟨?_, repo, names, target, _, valid, path, value_eq, removed, ?_⟩
  · rw [newCanonicalTargetPattern, validate_eq_ok_iff, removed]
    refine ⟨matches_validCanonicalTargetPatternPattern_iff.mpr ⟨_, _, _, canonical, final, rfl⟩, ?_⟩
    rw [newValidCanonicalTargetPattern, removeTargetPatternTargetNameIfRedundant_eq canonical nofun
      final.isComponent final.ne_some_nil, dropPatternTarget_idem]
  · by_cases recursive : (Repo.canonical canonicalRepo).implied names = some ellipsis
    · have nonempty : names ≠ [] := by
        rintro rfl
        exact Repo.rootTarget_ne_ellipsis canonical recursive
      have ends := getLast?_eq_some_getLast nonempty
      have same : repo.implied names = (Repo.canonical canonicalRepo).implied names := by
        rw [Repo.implied_of_getLast? ends, Repo.implied_of_getLast? ends]
      rw [replacedTarget, if_neg fun absent => nonempty absent.1, ← same, kept]
    · rw [dropPatternTarget_or recursive, replacedTarget_or resolved present]

/-! ## Closure -/

theorem exists_package_of_newCanonicalPackage {p : CanonicalPackage}
    (accepted : newCanonicalPackage s = .ok p) :
    ∃ name base, (canonical name).Valid ∧ (∀ name ∈ base, IsPackageComponent name) ∧
      p.value = (canonical name).head ++ renderPath base none := by
  obtain ⟨matched, rfl⟩ := validate_eq_ok_iff.mp accepted
  exact matches_validCanonicalPackagePattern_iff.mp matched

/-- Labels and target patterns that are constructed are accepted and not affected by being parsed,
except for names of targets that were mistaken for recursive target patterns. If a repo is replaced,
the package and target are kept. -/
theorem construction_closed (s v canonicalRepo : Text) :
    (∀ p l, newCanonicalPackage s = .ok p → p.appendLabel v = .ok l →
      newApparentLabel l.value = .ok l) ∧
    (∀ p tp, newCanonicalPackage s = .ok p → p.appendTargetPattern v = .ok tp →
      (newApparentTargetPattern tp.value = .ok tp ↔ ¬NameEndsWithEllipsis v)) ∧
    (∀ l, newApparentLabel s = .ok l →
      Matches validCanonicalRepoPattern canonicalRepo →
      IsNormalLabel (l.withCanonicalRepo canonicalRepo) ∧
      ∃ d, Denotes l.value d ∧ Denotes (l.withCanonicalRepo canonicalRepo)
        ⟨.canonical canonicalRepo, d.package, d.target⟩) ∧
    (∀ tp, newApparentTargetPattern s = .ok tp →
      Matches validCanonicalRepoPattern canonicalRepo →
      newCanonicalTargetPattern (tp.withCanonicalRepo canonicalRepo) =
        .ok ⟨tp.withCanonicalRepo canonicalRepo⟩ ∧
      SameInRepo canonicalRepo tp.value (tp.withCanonicalRepo canonicalRepo)) := by
  refine ⟨?_, ?_, ?_, ?_⟩
  · intro p l accepted appended
    obtain ⟨name, base, valid, each, value_eq⟩ := exists_package_of_newCanonicalPackage accepted
    obtain ⟨text, rfl, rendered⟩ := appendLabel_rendered valid value_eq each appended
    exact newApparentLabel_of_rendered rendered
  · intro p tp accepted appended
    obtain ⟨name, base, valid, each, value_eq⟩ := exists_package_of_newCanonicalPackage accepted
    exact appendTargetPattern_eq_iff valid value_eq each appended
  · intro l accepted canonical
    exact withCanonicalRepo_denotes (rendered_of_newApparentLabel accepted) canonical
  · intro tp accepted canonical
    exact withCanonicalRepo_rendered accepted canonical

/-- The name of a target is mistaken for a recursive target pattern. -/
theorem appendTargetPattern_yields_invalid :
    ∃ p tp, newCanonicalPackage "@@a+".toList = .ok p ∧
      p.appendTargetPattern "../...".toList = .ok tp ∧ tp.value = "@@a+//../...".toList ∧
      (newApparentTargetPattern tp.value).isOk = false := by
  refine ⟨⟨"@@a+".toList, ?_⟩, ⟨"@@a+//../...".toList⟩, ?_, ?_, rfl, by decide +kernel⟩
  · exact ⟨"a+".toList, [], ⟨by decide, by decide, by decide, by decide⟩, nofun, rfl⟩
  · rw [newCanonicalPackage, validate_eq_ok_iff]
    exact ⟨isMatch_iff.mp (by decide +kernel), rfl⟩
  · decide +kernel

end Bonanza.Label
