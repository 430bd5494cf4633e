import Bonanza.Label.Patterns

/-! # The grammar of labels and target patterns

What the patterns of `pkg/label` match. The name of a repo is followed by the components of the path
of a package, and optionally the name of a target (`renderPath`). For labels these are arbitrary
(`matches_validMaybeAbsoluteLabelPattern_iff`), while the last component of a target pattern may be
`...` (`matches_validMaybeAbsoluteTargetPatternPattern_iff`).

The rendering can be taken apart again, as separators do not occur in names
(`renderPath_injective`).
-/

namespace Bonanza.Label

open List Regex

variable {text name target : Text} {names : List Text} {c : Char}

/-! ## Components -/

/-- Components of the path of a package do not consist solely of dots. -/
structure IsPackageComponent (name : Text) : Prop where
  characters : ∀ c ∈ name, isNameCharacter c
  notDots : ∃ c ∈ name, c ≠ '.'

/-- Components of the name of a target may consist of two or more dots. -/
def IsTargetComponent (name : Text) : Prop :=
  IsPackageComponent name ∨ 2 ≤ name.length ∧ ∀ c ∈ name, c = '.'

/-- Names of targets that are accepted. -/
def IsTargetName (target : Text) : Prop :=
  ∃ names, names ≠ [] ∧ (∀ name ∈ names, IsTargetComponent name) ∧ target = join names

theorem matches_validPackageNameComponentPattern_iff :
    Matches validPackageNameComponentPattern text ↔ IsPackageComponent text := by
  simp only [validPackageNameComponentPattern, validPackageTargetNameCharacterPattern,
    validPackageTargetNameNonDotCharacterPattern, matches_seq_iff, matches_star_satisfying_iff,
    matches_satisfying_iff, Bool.and_eq_true, bne_iff_ne]
  constructor
  · rintro ⟨before, _, first, ⟨_, after, ⟨c, ⟨valid, notDot⟩, rfl⟩, last, rfl⟩, rfl⟩
    refine ⟨?_, c, mem_append_right _ mem_cons_self, notDot⟩
    exact forall_mem_append.mpr ⟨first, forall_mem_cons.mpr ⟨valid, last⟩⟩
  · rintro ⟨characters, c, member, notDot⟩
    obtain ⟨before, after, rfl⟩ := append_of_mem member
    rw [forall_mem_append, forall_mem_cons] at characters
    exact ⟨before, c :: after, characters.1, ⟨[c], after, ⟨c, ⟨characters.2.1, notDot⟩, rfl⟩,
      characters.2.2, rfl⟩, rfl⟩

theorem matches_validTargetNameComponentPattern_iff :
    Matches validTargetNameComponentPattern text ↔ IsTargetComponent text := by
  rw [validTargetNameComponentPattern, matches_alt_iff,
    matches_validPackageNameComponentPattern_iff, matches_seq_iff]
  refine or_congr Iff.rfl ?_
  simp only [exactly, matches_literal_iff, matches_plus_satisfying_iff, beq_iff_eq]
  constructor
  · rintro ⟨_, after, rfl, ⟨nonempty, dots⟩, rfl⟩
    have long := length_pos_iff.mpr nonempty
    refine ⟨?_, forall_mem_cons.mpr ⟨rfl, dots⟩⟩
    change 2 ≤ after.length + 1
    omega
  · rintro ⟨long, dots⟩
    obtain ⟨c, after, rfl⟩ := exists_cons_of_length_pos (Nat.lt_of_lt_of_le Nat.two_pos long)
    obtain ⟨rfl, others⟩ := forall_mem_cons.mp dots
    refine ⟨['.'], after, rfl, ⟨?_, others⟩, rfl⟩
    rintro rfl
    exact absurd long (by decide)

theorem not_mem_of_isNameCharacter (reserved : isNameCharacter c = false)
    (characters : ∀ c ∈ name, isNameCharacter c) : c ∉ name :=
  fun member => Bool.false_ne_true (reserved.symm.trans (characters c member))

theorem IsPackageComponent.isComponent (valid : IsPackageComponent name) : IsComponent name where
  nonempty := by
    rintro rfl
    obtain ⟨c, member, _⟩ := valid.notDots
    exact not_mem_nil member
  no_slash := not_mem_of_isNameCharacter (by decide) valid.characters
  no_colon := not_mem_of_isNameCharacter (by decide) valid.characters

theorem isComponent_of_dots (nonempty : name ≠ []) (dots : ∀ c ∈ name, c = '.') :
    IsComponent name where
  nonempty := nonempty
  no_slash := fun member => absurd (dots _ member) (by decide)
  no_colon := fun member => absurd (dots _ member) (by decide)

theorem IsTargetComponent.isComponent (valid : IsTargetComponent name) : IsComponent name := by
  rcases valid with component | ⟨long, dots⟩
  · exact component.isComponent
  · refine isComponent_of_dots ?_ dots
    rintro rfl
    exact absurd long (by decide)

/-! ## Lists of components -/

theorem join_cons_eq (first : Text) (rest : List Text) :
    join (first :: rest) = first ++ (rest.map ("/".toList ++ ·)).flatten := by
  induction rest generalizing first with
  | nil => exact (append_nil first).symm
  | cons second rest ih =>
    rw [join, ih]
    rfl

theorem join_cons_of_ne_nil {first : Text} {rest : List Text} (nonempty : rest ≠ []) :
    join (first :: rest) = first ++ '/' :: join rest := by
  obtain ⟨second, rest, rfl⟩ := exists_cons_of_ne_nil nonempty
  rfl

theorem matches_sepBy_slash_iff {item : Pattern} :
    Matches (sepBy item (exactly "/")) text ↔
      ∃ names, names ≠ [] ∧ (∀ name ∈ names, Matches item name) ∧ text = join names := by
  rw [matches_sepBy_iff]
  constructor
  · rintro ⟨first, rest, matched, each, rfl⟩
    exact ⟨first :: rest, cons_ne_nil _ _, forall_mem_cons.mpr ⟨matched, each⟩,
      (join_cons_eq first rest).symm⟩
  · rintro ⟨names, nonempty, each, rfl⟩
    obtain ⟨first, rest, rfl⟩ := exists_cons_of_ne_nil nonempty
    rw [forall_mem_cons] at each
    exact ⟨first, rest, each.1, each.2, join_cons_eq first rest⟩

theorem matches_validNonEmptyPackageNamePattern_iff :
    Matches validNonEmptyPackageNamePattern text ↔
      ∃ names, names ≠ [] ∧ (∀ name ∈ names, IsPackageComponent name) ∧ text = join names := by
  simp [validNonEmptyPackageNamePattern, matches_sepBy_slash_iff,
    matches_validPackageNameComponentPattern_iff]

/-- The pattern accepts the names of targets. -/
theorem matches_validTargetNamePattern_iff :
    Matches validTargetNamePattern text ↔ IsTargetName text := by
  simp [validTargetNamePattern, matches_sepBy_slash_iff,
    matches_validTargetNameComponentPattern_iff, IsTargetName]

theorem join_ne_nil (valid : ∀ name ∈ names, IsComponent name) (nonempty : names ≠ []) :
    join names ≠ [] := by
  obtain ⟨body, last, _, joined⟩ := exists_join_eq valid nonempty
  rw [joined]
  exact append_ne_nil_of_right_ne_nil _ (cons_ne_nil _ _)

theorem IsTargetName.ne_nil (valid : IsTargetName target) : target ≠ [] := by
  obtain ⟨names, nonempty, each, rfl⟩ := valid
  exact join_ne_nil (fun name member => (each name member).isComponent) nonempty

theorem IsTargetName.no_colon (valid : IsTargetName target) : ':' ∉ target := by
  obtain ⟨names, _, each, rfl⟩ := valid
  exact not_mem_join (by decide) fun name member => (each name member).isComponent.no_colon

/-! ## What follows the name of a repo -/

/-- The separator and the name of a target, if there is one. -/
def renderTarget : Option Text → Text
  | none => []
  | some target => ':' :: target

/-- The path of a package and the name of a target. -/
def renderPath (names : List Text) (target : Option Text) : Text :=
  if names = [] ∧ target = none then [] else '/' :: '/' :: (join names ++ renderTarget target)

variable {target : Option Text}

theorem renderPath_of_not (present : ¬(names = [] ∧ target = none)) :
    renderPath names target = '/' :: '/' :: (join names ++ renderTarget target) :=
  if_neg present

theorem renderPath_some (names : List Text) (target : Text) :
    renderPath names (some target) = '/' :: '/' :: (join names ++ ':' :: target) :=
  if_neg nofun

theorem renderPath_none (nonempty : names ≠ []) :
    renderPath names none = '/' :: '/' :: join names :=
  (if_neg fun both => nonempty both.1).trans (congrArg (['/', '/'] ++ ·) (append_nil _))

/-- The path of a label is valid. -/
structure ValidPath (names : List Text) (target : Option Text) : Prop where
  names : ∀ name ∈ names, IsPackageComponent name
  target : ∀ t ∈ target, IsTargetName t

/-- Targets that stand for all targets of a package. -/
def wildcards : List Text := ["all".toList, "all-targets".toList, "*".toList]

theorem mem_wildcards_iff :
    name ∈ wildcards ↔ name = "all".toList ∨ name = "all-targets".toList ∨ name = "*".toList := by
  simp [wildcards]

/-- The component that stands for all packages below a given one. -/
def ellipsis : Text := "...".toList

theorem eq_of_mem_ellipsis (member : c ∈ ellipsis) : c = '.' :=
  eq_of_beq (all_eq_true.mp (by decide : ellipsis.all (· == '.')) c member)

/-- The path of a target pattern that matches packages recursively is valid. -/
structure ValidRecursivePath (names : List Text) (target : Option Text) : Prop where
  names : ∃ base, (∀ name ∈ base, IsPackageComponent name) ∧ names = base ++ [ellipsis]
  target : ∀ t ∈ target, t ∈ wildcards

theorem ValidRecursivePath.ne_nil (valid : ValidRecursivePath names target) : names ≠ [] := by
  obtain ⟨base, _, rfl⟩ := valid.names
  exact append_ne_nil_of_right_ne_nil _ (cons_ne_nil _ _)

/-- What may follow the repo of a target pattern. -/
def ValidPatternPath (names : List Text) (target : Option Text) : Prop :=
  ValidPath names target ∨ ValidRecursivePath names target

theorem matches_validAbsoluteLabelPattern_iff :
    Matches validAbsoluteLabelPattern text ↔ ∃ names target, ¬(names = [] ∧ target = none) ∧
      ValidPath names target ∧ text = renderPath names target := by
  simp only [validAbsoluteLabelPattern, exactly, matches_seq_iff, matches_alt_iff,
    matches_literal_iff, matches_optional_iff, matches_validNonEmptyPackageNamePattern_iff,
    matches_validTargetNamePattern_iff]
  constructor
  · rintro ⟨_, _, rfl, ⟨_, target, rfl, valid, rfl⟩ |
      ⟨_, _, ⟨names, nonempty, each, rfl⟩, ⟨_, target, rfl, valid, rfl⟩ | rfl, rfl⟩, rfl⟩
    · refine ⟨[], some target, by rintro ⟨-, ⟨⟩⟩, ⟨forall_mem_nil _, ?_⟩, rfl⟩
      rintro t ⟨⟩
      exact valid
    · have present : ¬(names = [] ∧ some target = none) := fun both => nonempty both.1
      refine ⟨names, some target, present, ⟨each, ?_⟩, (renderPath_of_not present).symm⟩
      rintro t ⟨⟩
      exact valid
    · have present : ¬(names = [] ∧ (none : Option Text) = none) := fun both => nonempty both.1
      exact ⟨names, none, present, ⟨each, by rintro _ ⟨⟩⟩, (renderPath_of_not present).symm⟩
  · rintro ⟨names, target, present, valid, rfl⟩
    rw [renderPath_of_not present]
    refine ⟨['/', '/'], _, rfl, ?_, rfl⟩
    by_cases empty : names = []
    · subst empty
      cases target with
      | none => exact absurd ⟨rfl, rfl⟩ present
      | some target => exact .inl ⟨[':'], target, rfl, valid.target _ rfl, rfl⟩
    · refine .inr ⟨join names, renderTarget target, ⟨names, empty, valid.names, rfl⟩, ?_, rfl⟩
      cases target with
      | none => exact .inr rfl
      | some target => exact .inl ⟨[':'], target, rfl, valid.target _ rfl, rfl⟩

theorem matches_maybeAbsolute_iff {absolute : Pattern} {path : List Text → Option Text → Prop}
    (root : path [] none)
    (absolute_iff : Matches absolute text ↔ ∃ names target, ¬(names = [] ∧ target = none) ∧
      path names target ∧ text = renderPath names target) :
    Matches (optional absolute) text ↔
      ∃ names target, path names target ∧ text = renderPath names target := by
  rw [matches_optional_iff, absolute_iff]
  constructor
  · rintro (⟨names, target, _, valid, rfl⟩ | rfl)
    · exact ⟨names, target, valid, rfl⟩
    · exact ⟨[], none, root, rfl⟩
  · rintro ⟨names, target, valid, rfl⟩
    by_cases absent : names = [] ∧ target = none
    · exact .inr (if_pos absent)
    · exact .inl ⟨names, target, absent, valid, rfl⟩

theorem matches_validMaybeAbsoluteLabelPattern_iff :
    Matches validMaybeAbsoluteLabelPattern text ↔
      ∃ names target, ValidPath names target ∧ text = renderPath names target :=
  matches_maybeAbsolute_iff ⟨nofun, nofun⟩ matches_validAbsoluteLabelPattern_iff

theorem join_concat (names : List Text) (last : Text) :
    join (names ++ [last]) = (names.map (· ++ "/".toList)).flatten ++ last := by
  induction names with
  | nil => rfl
  | cons name names ih =>
    rw [cons_append, join_cons_of_ne_nil (append_ne_nil_of_right_ne_nil _ (cons_ne_nil _ _)), ih,
      map_cons, flatten_cons, append_assoc, append_assoc]
    rfl

theorem matches_validRelativeRecursiveTargetPatternPattern_iff :
    Matches validRelativeRecursiveTargetPatternPattern text ↔
      ∃ names target, ValidRecursivePath names target ∧
        text = join names ++ renderTarget target := by
  simp only [validRelativeRecursiveTargetPatternPattern, exactly, matches_seq_iff, matches_alt_iff,
    matches_literal_iff, matches_optional_iff, matches_star_terminated_iff,
    matches_validPackageNameComponentPattern_iff]
  constructor
  · rintro ⟨_, _, ⟨base, each, rfl⟩, ⟨_, _, rfl, ending, rfl⟩, rfl⟩
    have joined := join_concat base ellipsis
    rcases ending with ⟨_, target, rfl, wildcard, rfl⟩ | rfl
    · refine ⟨base ++ [ellipsis], some target, ⟨⟨base, each, rfl⟩, ?_⟩, ?_⟩
      · rintro t ⟨⟩
        rcases wildcard with rfl | rfl | rfl <;> decide
      · rw [joined, append_assoc]
        rfl
    · refine ⟨base ++ [ellipsis], none, ⟨⟨base, each, rfl⟩, by rintro _ ⟨⟩⟩, ?_⟩
      rw [joined, append_assoc]
      rfl
  · rintro ⟨_, target, ⟨⟨base, each, rfl⟩, wildcard⟩, rfl⟩
    rw [join_concat, append_assoc]
    refine ⟨_, _, ⟨base, each, rfl⟩, ⟨_, renderTarget target, rfl, ?_, rfl⟩, rfl⟩
    cases target with
    | none => exact .inr rfl
    | some target =>
      refine .inl ⟨[':'], target, rfl, ?_, rfl⟩
      exact mem_wildcards_iff.mp (wildcard _ rfl)

theorem matches_validAbsoluteTargetPatternPattern_iff :
    Matches validAbsoluteTargetPatternPattern text ↔ ∃ names target,
      ¬(names = [] ∧ target = none) ∧ ValidPatternPath names target ∧
        text = renderPath names target := by
  have label : Matches validAbsoluteTargetPatternPattern text ↔
      Matches validAbsoluteLabelPattern text ∨
        ∃ rest, Matches validRelativeRecursiveTargetPatternPattern rest ∧
          text = "//".toList ++ rest := by
    simp [validAbsoluteTargetPatternPattern, validAbsoluteLabelPattern, matches_literal_seq_iff,
      matches_alt_iff, ← or_assoc, or_and_right, exists_or]
  rw [label, matches_validAbsoluteLabelPattern_iff]
  simp only [matches_validRelativeRecursiveTargetPatternPattern_iff]
  constructor
  · rintro (⟨names, target, present, valid, rfl⟩ | ⟨_, ⟨names, target, valid, rfl⟩, rfl⟩)
    · exact ⟨names, target, present, .inl valid, rfl⟩
    · have present : ¬(names = [] ∧ target = none) := fun both => valid.ne_nil both.1
      exact ⟨names, target, present, .inr valid, (renderPath_of_not present).symm⟩
  · rintro ⟨names, target, present, valid | valid, rfl⟩
    · exact .inl ⟨names, target, present, valid, rfl⟩
    · exact .inr ⟨_, ⟨names, target, valid, rfl⟩, renderPath_of_not present⟩

theorem matches_validMaybeAbsoluteTargetPatternPattern_iff :
    Matches validMaybeAbsoluteTargetPatternPattern text ↔
      ∃ names target, ValidPatternPath names target ∧ text = renderPath names target :=
  matches_maybeAbsolute_iff (.inl ⟨nofun, nofun⟩) matches_validAbsoluteTargetPatternPattern_iff

/-! ## Taking texts apart -/

theorem ValidPatternPath.isComponent
    (valid : ValidPatternPath names target) :
    ∀ name ∈ names, IsComponent name := by
  rcases valid with valid | valid
  · exact fun name member => (valid.names name member).isComponent
  · obtain ⟨base, each, rfl⟩ := valid.names
    rw [forall_mem_append, forall_mem_singleton]
    exact ⟨fun name member => (each name member).isComponent,
      isComponent_of_dots (by decide) fun _ => eq_of_mem_ellipsis⟩

theorem ValidPath.isComponent (valid : ValidPath names target) : ∀ name ∈ names, IsComponent name :=
  ValidPatternPath.isComponent (.inl valid)

section

variable {names' : List Text} {target target' : Option Text}
  (components : ∀ name ∈ names, IsComponent name) (components' : ∀ name ∈ names', IsComponent name)

include components in
theorem colon_not_mem_join : ':' ∉ join names :=
  not_mem_join (by decide) fun name member => (components name member).no_colon

include components in
theorem cut_join_renderTarget {before : Text} (absent : ':' ∉ before) :
    cut ':' (before ++ (join names ++ renderTarget target)) =
      target.map fun target => (before ++ join names, target) := by
  have absent' : ':' ∉ before ++ join names := by
    rw [mem_append, not_or]
    exact ⟨absent, colon_not_mem_join components⟩
  rw [← append_assoc]
  cases target with
  | none => exact (congrArg _ (append_nil _)).trans (cut_of_not_mem absent')
  | some target => exact cut_append absent' target

include components components' in
theorem join_renderTarget_injective
    (same : join names ++ renderTarget target = join names' ++ renderTarget target') :
    names = names' ∧ target = target' := by
  have parts : target.map (fun target => (join names, target)) =
      target'.map (fun target => (join names', target)) := by
    rw [← nil_append (join names), ← nil_append (join names'),
      ← cut_join_renderTarget components not_mem_nil,
      ← cut_join_renderTarget components' not_mem_nil, nil_append, nil_append, same]
  have joined : join names = join names' ∧ target = target' := by
    cases target with
    | none =>
      cases target' with
      | none => exact ⟨by simpa only [renderTarget, append_nil] using same, rfl⟩
      | some _ => cases parts
    | some _ =>
      cases target' with
      | none => cases parts
      | some _ =>
        obtain ⟨joined, rfl⟩ := Prod.ext_iff.mp (Option.some.inj parts)
        exact ⟨joined, rfl⟩
  refine ⟨?_, joined.2⟩
  rw [← components_join components, joined.1, components_join components']

include components components' in
/-- The path of a package and the name of a target follow from what they are rendered as. -/
theorem renderPath_injective (same : renderPath names target = renderPath names' target') :
    names = names' ∧ target = target' := by
  rw [renderPath, renderPath] at same
  split_ifs at same with absent absent' absent'
  · exact ⟨absent.1.trans absent'.1.symm, absent.2.trans absent'.2.symm⟩
  · rw [cons_eq_cons, cons_eq_cons] at same
    exact join_renderTarget_injective components components' same.2.2

theorem renderPath_eq_nil_or (names : List Text) (target : Option Text) :
    (names = [] ∧ target = none) ∧ renderPath names target = [] ∨
      ¬(names = [] ∧ target = none) ∧ ∃ rest, renderPath names target = '/' :: rest := by
  by_cases absent : names = [] ∧ target = none
  · exact .inl ⟨absent, if_pos absent⟩
  · exact .inr ⟨absent, _, if_neg absent⟩

theorem append_renderPath_injective {head head' : Text} (absent : '/' ∉ head)
    (absent' : '/' ∉ head')
    (same : head ++ renderPath names target = head' ++ renderPath names' target') :
    head = head' ∧ renderPath names target = renderPath names' target' := by
  rcases renderPath_eq_nil_or names target with ⟨_, path⟩ | ⟨_, rest, path⟩ <;>
    rcases renderPath_eq_nil_or names' target' with ⟨_, path'⟩ | ⟨_, rest', path'⟩ <;>
    rw [path, path'] at same ⊢
  · rw [append_nil, append_nil] at same
    exact ⟨same, rfl⟩
  · rw [append_nil] at same
    exact absurd (same ▸ mem_append_right _ mem_cons_self) absent
  · rw [append_nil] at same
    exact absurd (same ▸ mem_append_right _ mem_cons_self) absent'
  · have parts := (cut_append absent rest).symm.trans ((congrArg _ same).trans
      (cut_append absent' rest'))
    obtain ⟨rfl, rfl⟩ := Prod.ext_iff.mp (Option.some.inj parts)
    exact ⟨rfl, rfl⟩

end

/-! ## Repos -/

/-- Names of repos are free of characters that have a meaning in labels. -/
structure IsRepoName (repo : Text) : Prop where
  nonempty : repo ≠ []
  no_slash : '/' ∉ repo
  no_colon : ':' ∉ repo
  no_at : '@' ∉ repo
  no_bracket : '[' ∉ repo

theorem isRepoName_of_avoids {pattern : Pattern} (matched : Matches pattern text)
    (avoided : !nullable pattern && ['/', ':', '@', '['].all (avoids · pattern)) :
    IsRepoName text := by
  simp only [all_cons, all_nil, Bool.and_true, Bool.and_eq_true, Bool.not_eq_true'] at avoided
  obtain ⟨never, slash, colon, ampersat, bracket⟩ := avoided
  exact ⟨matched.ne_nil never, matched.not_mem slash, matched.not_mem colon,
    matched.not_mem ampersat, matched.not_mem bracket⟩

theorem isRepoName_of_canonical (matched : Matches validCanonicalRepoPattern text) :
    IsRepoName text :=
  isRepoName_of_avoids matched (by decide)

theorem isRepoName_of_apparent (matched : Matches validApparentRepoPattern text) :
    IsRepoName text :=
  isRepoName_of_avoids matched (by decide)

end Bonanza.Label
