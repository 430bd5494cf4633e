import Bonanza.Label.Grammar

/-! # Construction of labels

`NewCanonicalLabel`, `NewResolvedLabel` and `NewApparentLabel` validate labels, after which they
remove names of targets that are redundant. What is removed is the name implied if no name is given
(`removeLabelTargetNameIfRedundant_eq`).
-/

namespace Bonanza.Label

open List Option Regex

/-- Why a text is rejected. Messages contain the patterns. The last one stands for a panic. -/
inductive InvalidText where
  | canonicalLabel
  | resolvedLabel
  | apparentLabel
  | canonicalPackage
  | canonicalTargetPattern
  | apparentTargetPattern
  | label
  | targetPattern
  | crash
  deriving DecidableEq, Repr

/-- `strings.CutSuffix`. -/
def cutSuffix (text suffix : Text) : Option Text :=
  if suffix <:+ text then some (text.take (text.length - suffix.length)) else none

/-- What comes after the last separator, or all of the text if there is none. -/
def afterLast (separator : Char) (text : Text) : Text :=
  (cutLast separator text).getD text

/-- `strings.TrimLeft`, for the character that precedes names of repos. -/
def trimLeftAt (text : Text) : Text := text.dropWhile (· = '@')

/-- Remove the name of a target that is implied. -/
def removeLabelTargetNameIfRedundant (label : Text) : Text :=
  match cut ':' label with
  | none => label
  | some (canonicalPackage, targetName) =>
    match cutSuffix canonicalPackage ['/', '/'] with
    | some canonicalRepo =>
      -- Labels that contain an error message keep their target name.
      if ['@', '@', '['] <+: canonicalRepo then label
      else if targetName = trimLeftAt canonicalRepo then canonicalRepo
      else label
    | none =>
      if targetName = afterLast '/' canonicalPackage then canonicalPackage else label

/-- Validate a text before constructing a value from it. -/
def validate {α : Type} (pattern : Pattern) (failure : InvalidText) (text : Text)
    (construct : Matches pattern text → α) : Except InvalidText α :=
  if matched : Matches pattern text then .ok (construct matched) else .error failure

variable {text : Text}

/-- A text is accepted if and only if it matches the pattern. -/
theorem validate_eq_ok_iff {α : Type} {pattern : Pattern} {failure : InvalidText}
    {construct : Matches pattern text → α} {value : α} :
    validate pattern failure text construct = .ok value ↔ ∃ matched, construct matched = value := by
  rw [validate]
  split_ifs with matched
  · rw [Except.ok.injEq]
    exact ⟨fun same => ⟨matched, same⟩, fun ⟨_, same⟩ => same⟩
  · exact ⟨nofun, fun ⟨other, _⟩ => absurd other matched⟩

/-! ## Texts with separators -/

variable {before after last : Text}

section

variable {head text : Text} {names : List Text}

theorem cutSuffix_append (before suffix : Text) :
    cutSuffix (before ++ suffix) suffix = some before := by
  rw [cutSuffix, if_pos (suffix_append before suffix), length_append, Nat.add_sub_cancel, take_left]

theorem cutLast_append (absent : '/' ∉ after) :
    cutLast '/' (before ++ '/' :: after) = some after := by
  have reversed : (before ++ '/' :: after).reverse = after.reverse ++ '/' :: before.reverse := by
    simp
  rw [cutLast, reversed, cut_append (by rwa [mem_reverse])]
  exact congrArg some (reverse_reverse after)

theorem trimLeftAt_of_not_mem (absent : '@' ∉ text) : trimLeftAt text = text := by
  cases text with
  | nil => rfl
  | cons c rest =>
    rw [mem_cons, not_or] at absent
    exact dropWhile_cons_of_neg (by simpa using Ne.symm absent.1)

variable (components : ∀ name ∈ names, IsComponent name)

include components

/-- Only the root package ends with two slashes. -/
theorem cutSuffix_package :
    cutSuffix (head ++ '/' :: '/' :: join names) ['/', '/'] =
      if names = [] then some head else none := by
  split_ifs with empty
  · subst empty
    exact cutSuffix_append head _
  · obtain ⟨body, last, different, joined⟩ := exists_join_eq components empty
    rw [cutSuffix, if_neg]
    rintro ⟨before, ends⟩
    have parts : (before ++ ['/']) ++ ['/'] = (head ++ '/' :: '/' :: body) ++ [last] := by
      rw [joined] at ends
      simpa only [append_assoc, cons_append, nil_append] using ends
    exact different (singleton_inj.mp (append_inj_right' parts rfl)).symm

omit components in
/-- Packages end with the last component. -/
theorem exists_package_eq {last : Text} (ends : names.getLast? = some last) :
    ∃ before, head ++ '/' :: '/' :: join names = before ++ '/' :: last := by
  obtain ⟨init, rfl⟩ := getLast?_eq_some_iff.mp ends
  by_cases empty : init = []
  · subst empty
    refine ⟨head ++ ['/'], ?_⟩
    simp [join]
  · refine ⟨head ++ '/' :: '/' :: join init, ?_⟩
    rw [join_append empty (cons_ne_nil _ _), append_assoc]
    rfl

theorem cutLast_package (ends : names.getLast? = some last) :
    cutLast '/' (head ++ '/' :: '/' :: join names) = some last := by
  obtain ⟨before, split⟩ := @exists_package_eq head names last ends
  rw [split, cutLast_append (components last (mem_of_getLast? ends)).no_slash]

theorem afterLast_package (ends : names.getLast? = some last) :
    afterLast '/' (head ++ '/' :: '/' :: join names) = last := by
  rw [afterLast, cutLast_package components ends]
  rfl

end

/-! ## Repos -/

/-- The repo of a label: an apparent or canonical one, that of the root module, or an error message
if it could not be resolved. -/
inductive Repo where
  | apparent (name : Text)
  | canonical (name : Text)
  | main
  | unresolved (message : Text)
  deriving DecidableEq

variable {names : List Text} {name : Text}

namespace Repo

/-- What labels start with. -/
def head : Repo → Text
  | apparent name => '@' :: name
  | canonical name => '@' :: '@' :: name
  | main => ['@', '@']
  | unresolved message => '@' :: '@' :: '[' :: (message ++ [']'])

/-- The target implied if there is neither a path nor a name. -/
def rootTarget : Repo → Option Text
  | apparent name => some name
  | canonical name => some name
  | main => none
  | unresolved _ => none

/-- Repos that are part of a label that is valid. -/
def Valid : Repo → Prop
  | apparent name => Matches validApparentRepoPattern name
  | canonical name => Matches validCanonicalRepoPattern name
  | main => True
  | unresolved message => message ≠ [] ∧ ']' ∉ message

variable {repo : Repo}

/-- The name of a target if none is given. -/
def implied (repo : Repo) (names : List Text) : Option Text :=
  names.getLast?.or repo.rootTarget

/-- The last component of a package is implied. -/
theorem implied_of_getLast? (ends : names.getLast? = some last) :
    repo.implied names = some last := by
  rw [implied, ends]
  rfl

variable (valid : repo.Valid)

include valid

/-- Targets at the root that are implied are named like a repo. -/
theorem isRepoName (named : repo.rootTarget = some name) : IsRepoName name := by
  cases repo with
  | apparent _ =>
    cases named
    exact isRepoName_of_apparent valid
  | canonical _ =>
    cases named
    exact isRepoName_of_canonical valid
  | main => cases named
  | unresolved _ => cases named

theorem colon_not_mem_head (message : ∀ message, repo = unresolved message → ':' ∉ message) :
    ':' ∉ repo.head := by
  cases repo with
  | apparent name => simpa [head] using (isRepoName valid rfl).no_colon
  | canonical name => simpa [head] using (isRepoName valid rfl).no_colon
  | main => decide
  | unresolved text => simpa [head] using message text rfl

/-- Only unresolved repos start with a bracket. -/
theorem bracket_prefix_head_iff :
    ['@', '@', '['] <+: repo.head ↔ ∃ message, repo = unresolved message := by
  cases repo with
  | apparent name =>
    refine iff_of_false ?_ nofun
    rintro ⟨_, rest, rfl⟩
    exact (isRepoName valid rfl).no_at mem_cons_self
  | canonical name =>
    refine iff_of_false ?_ nofun
    rintro ⟨_, _, rest, rfl⟩
    exact (isRepoName valid rfl).no_bracket mem_cons_self
  | main => exact iff_of_false (by decide) nofun
  | unresolved message => exact iff_of_true ⟨message ++ [']'], rfl⟩ ⟨message, rfl⟩

variable (resolved : ∀ message, repo ≠ unresolved message)

include resolved

/-- Without the at signs, the name of the repo remains. -/
theorem trimLeftAt_head : trimLeftAt repo.head = repo.rootTarget.getD [] := by
  cases repo with
  | apparent name => exact trimLeftAt_of_not_mem (isRepoName valid rfl).no_at
  | canonical name => exact trimLeftAt_of_not_mem (isRepoName valid rfl).no_at
  | main => rfl
  | unresolved message => exact absurd rfl (resolved message)

theorem eq_trimLeftAt_head_iff {target : Text} (nonempty : target ≠ []) :
    target = trimLeftAt repo.head ↔ some target = repo.rootTarget := by
  rw [trimLeftAt_head valid resolved]
  cases repo.rootTarget with
  | none => exact iff_of_false nonempty nofun
  | some name => exact (some.injEq target name).symm ▸ Iff.rfl

omit resolved

end Repo

/-! ## Removal of redundant names -/

/-- Names of targets that are implied are not kept. -/
def dropImplied (implied target : Option Text) : Option Text :=
  if target = implied then none else target

section

variable {repo : Repo} {names : List Text} {target : Text}

/-- The first colon separates the name of the target. -/
theorem cut_label (colon : ':' ∉ repo.head) (components : ∀ name ∈ names, IsComponent name)
    (target : Option Text) :
    cut ':' (repo.head ++ renderPath names target) =
      target.map fun target => (repo.head ++ '/' :: '/' :: join names, target) := by
  rcases renderPath_eq_nil_or names target with ⟨⟨rfl, rfl⟩, path⟩ | ⟨present, _⟩
  · rw [path, append_nil, cut_of_not_mem colon]
    rfl
  have separated : ':' ∉ repo.head ++ ['/', '/'] := by
    simpa only [mem_append, mem_cons, Char.reduceEq, not_mem_nil, or_false]
      using colon
  have parts := @cut_join_renderTarget names target components _ separated
  simp only [append_assoc, cons_append, nil_append] at parts
  rw [renderPath_of_not present, parts]

/-- Exactly the name that is implied is removed. -/
theorem removeLabelTargetNameIfRedundant_eq (valid : repo.Valid) (colon : ':' ∉ repo.head)
    (components : ∀ name ∈ names, IsComponent name) {target : Option Text}
    (nonempty : target ≠ some []) :
    removeLabelTargetNameIfRedundant (repo.head ++ renderPath names target) =
      repo.head ++ renderPath names (dropImplied (repo.implied names) target) := by
  rw [removeLabelTargetNameIfRedundant, cut_label colon components]
  cases target with
  | none => rw [dropImplied, ite_self, map_none]
  | some target =>
    rw [map_some]
    simp only [cutSuffix_package components]
    by_cases empty : names = []
    · subst empty
      have implied : repo.implied [] = repo.rootTarget := rfl
      rw [if_pos rfl, dropImplied, implied]
      dsimp only
      have bracket := Repo.bracket_prefix_head_iff valid
      by_cases unresolved : ∃ message, repo = .unresolved message
      · rw [if_pos (bracket.mpr unresolved)]
        obtain ⟨message, rfl⟩ := unresolved
        rfl
      have redundant := Repo.eq_trimLeftAt_head_iff valid
        (fun message same => unresolved ⟨message, same⟩)
        (fun absent => nonempty (congrArg some absent))
      rw [if_neg (bracket.not.mpr unresolved)]
      by_cases same : some target = repo.rootTarget
      · rw [if_pos same, if_pos (redundant.mpr same)]
        exact (append_nil _).symm
      · rw [if_neg same, if_neg (redundant.not.mpr same)]
    · obtain ⟨last, ends⟩ : ∃ last, names.getLast? = some last :=
        ⟨_, getLast?_eq_some_getLast empty⟩
      rw [if_neg empty, dropImplied, Repo.implied_of_getLast? ends]
      simp only [afterLast_package components ends, some.injEq]
      by_cases same : target = last
      · have present : ¬(names = [] ∧ (none : Option Text) = none) := fun both => empty both.1
        rw [if_pos same, if_pos same, renderPath_of_not present, renderTarget, append_nil]
      · rw [if_neg same, if_neg same]

end

/-! ## Labels that contain an error message -/

theorem eq_append_of_cutSuffix {suffix : Text} (found : cutSuffix text suffix = some before) :
    text = before ++ suffix := by
  rw [cutSuffix] at found
  split_ifs at found with ends
  obtain ⟨start, rfl⟩ := ends
  rw [length_append, Nat.add_sub_cancel, take_left] at found
  cases found
  rfl

variable {separator : Char}

theorem prefix_of_prefix_append (absent : separator ∉ text)
    (starts : text <+: before ++ separator :: after) :
    text <+: before := by
  induction text generalizing before with
  | nil => exact nil_prefix
  | cons c text ih =>
    rw [mem_cons, not_or] at absent
    cases before with
    | nil => exact absurd (cons_prefix_cons.mp starts).1.symm absent.1
    | cons d before =>
      rw [cons_append, cons_prefix_cons] at starts
      rw [cons_prefix_cons]
      exact ⟨starts.1, ih absent.2 starts.2⟩

theorem eq_append_of_cut (found : cut separator text = some (before, after)) :
    text = before ++ separator :: after := by
  induction text generalizing before with
  | nil => cases found
  | cons c rest ih =>
    rw [cut] at found
    split_ifs at found with same
    · cases found
      rw [same]
      rfl
    · obtain ⟨⟨start, ending⟩, earlier, parts⟩ := map_eq_some_iff.mp found
      cases parts
      rw [ih earlier]
      rfl

theorem mem_of_mem_afterLast {c : Char} (member : c ∈ afterLast '/' text) :
    c ∈ text := by
  rw [afterLast, cutLast] at member
  cases found : cut '/' text.reverse with
      rw [found] at member
  | none =>
    exact member
  | some parts =>
    rw [← mem_reverse, eq_append_of_cut found]
    exact mem_append_left _ (mem_reverse.mp member)

/-- Error messages with a colon are left alone. -/
theorem removeLabelTargetNameIfRedundant_of_bracket (starts : ['@', '@', '['] <+: before)
    (colon : ':' ∉ before) (unclosed : ']' ∉ before) (closed : ']' ∈ after) :
    removeLabelTargetNameIfRedundant (before ++ ':' :: after) = before ++ ':' :: after := by
  rw [removeLabelTargetNameIfRedundant, cut_append colon]
  cases found : cutSuffix before ['/', '/'] with
  | some canonicalRepo =>
    rw [eq_append_of_cutSuffix found] at starts
    simp [found, if_pos (prefix_of_prefix_append (by decide) starts)]
  | none =>
    simp only [found]
    refine if_neg ?_
    rintro rfl
    exact unclosed (mem_of_mem_afterLast closed)

variable {message : Text}

theorem removeLabelTargetNameIfRedundant_of_colon_mem {rest : Text} (closed : ']' ∉ message)
    (colon : ':' ∈ message) :
    removeLabelTargetNameIfRedundant ((Repo.unresolved message).head ++ rest) =
      (Repo.unresolved message).head ++ rest := by
  obtain ⟨before, after, rfl, first⟩ := eq_append_cons_of_mem colon
  have split : (Repo.unresolved (before ++ ':' :: after)).head ++ rest =
      ('@' :: '@' :: '[' :: before) ++ ':' :: (after ++ ']' :: rest) := by
    simp [Repo.head]
  rw [mem_append, not_or] at closed
  rw [split]
  refine removeLabelTargetNameIfRedundant_of_bracket ⟨before, rfl⟩ ?_ ?_ ?_
  · simpa only [mem_cons, Char.reduceEq, false_or] using first
  · simpa only [mem_cons, Char.reduceEq, false_or] using closed.1
  · exact mem_append_right _ mem_cons_self

/-! ## Constructors -/

variable {value : Text}

/-- Normal forms are valid. -/
theorem ValidLabel.removeLabelTargetNameIfRedundant (valid : ValidLabel value) :
    ValidLabel (removeLabelTargetNameIfRedundant value) := by
  obtain ⟨repo, names, isRepo, components, rfl | ⟨target, rfl⟩⟩ := valid
  · rw [Label.removeLabelTargetNameIfRedundant,
      cut_of_not_mem (not_colon_mem_render isRepo components)]
    exact ⟨repo, names, isRepo, components, .inl rfl⟩
  · have kept : ValidLabel ('@' :: '@' :: (repo ++ '/' :: '/' :: (join names ++ ':' :: target))) :=
      ⟨repo, names, isRepo, components, .inr ⟨target, rfl⟩⟩
    have dropped : ValidLabel (render repo names) := ⟨repo, names, isRepo, components, .inl rfl⟩
    have colon : ':' ∉ '@' :: '@' :: (repo ++ ['/', '/']) := by
      simpa only [mem_cons, mem_append, Char.reduceEq, not_mem_nil, or_false,
        false_or] using isRepo.no_colon
    have parts := @cut_join_renderTarget names (some target) components _ colon
    simp only [append_assoc, cons_append, nil_append, renderTarget, map_some] at parts
    rw [Label.removeLabelTargetNameIfRedundant, parts]
    have suffix := @cutSuffix_package ('@' :: '@' :: repo) names components
    simp only [cons_append] at suffix
    simp only [suffix]
    by_cases empty : names = []
    · subst empty
      rw [if_pos rfl]
      have root : render repo [] = '@' :: '@' :: repo := by
        rw [render, if_pos rfl, append_nil]
      rw [root] at dropped
      dsimp only
      split_ifs
      · exact kept
      · exact dropped
      · exact kept
    · rw [if_neg empty]
      rw [render, if_neg empty] at dropped
      dsimp only
      split_ifs
      · exact dropped
      · exact kept

/-- Labels that are spelled out are valid. -/
theorem validLabel_of_canonical (valid : Matches validCanonicalRepoPattern name)
    (components : ∀ name ∈ names, IsComponent name) (target : Option Text) :
    ValidLabel ((Repo.canonical name).head ++ renderPath names target) := by
  have isName := isRepoName_of_canonical valid
  refine ⟨name, names, ⟨isName.nonempty, isName.no_slash, isName.no_colon, isName.no_bracket⟩,
    components, ?_⟩
  cases target with
  | none =>
    refine .inl (congrArg ('@' :: '@' :: name ++ ·) ?_)
    simp [renderPath, renderTarget]
  | some target =>
    refine .inr ⟨target, congrArg ('@' :: '@' :: name ++ ·) (renderPath_of_not ?_)⟩
    exact fun both => Option.some_ne_none _ both.2

theorem matches_canonical_iff {maybe : Pattern} {path : List Text → Option Text → Prop}
    (maybe_iff : ∀ {text}, Matches maybe text ↔ ∃ names target, path names target ∧
      text = renderPath names target) :
    Matches (seq (exactly "@@") (seq validCanonicalRepoPattern maybe)) text ↔
      ∃ name names target, Matches validCanonicalRepoPattern name ∧ path names target ∧
        text = (Repo.canonical name).head ++ renderPath names target := by
  simp only [exactly, matches_seq_iff, matches_literal_iff, maybe_iff]
  constructor
  · rintro ⟨_, _, rfl, ⟨name, _, valid, ⟨names, target, path, rfl⟩, rfl⟩, rfl⟩
    exact ⟨name, names, target, valid, path, rfl⟩
  · rintro ⟨name, names, target, valid, path, rfl⟩
    exact ⟨['@', '@'], _, rfl, ⟨name, _, valid, ⟨names, target, path, rfl⟩, rfl⟩, rfl⟩

/-- The pattern accepts labels that are spelled out. -/
theorem matches_validCanonicalLabelPattern_iff :
    Matches validCanonicalLabelPattern text ↔ ∃ name names target,
      Matches validCanonicalRepoPattern name ∧ ValidPath names target ∧
        text = (Repo.canonical name).head ++ renderPath names target :=
  matches_canonical_iff matches_validMaybeAbsoluteLabelPattern_iff

/-- Labels that are accepted are valid. -/
theorem validLabel_of_matches (matched : Matches validCanonicalLabelPattern text) :
    ValidLabel text := by
  obtain ⟨name, names, target, valid, path, rfl⟩ :=
    matches_validCanonicalLabelPattern_iff.mp matched
  exact validLabel_of_canonical valid path.isComponent target

/-- Bring a valid label into normal form. -/
def newValidCanonicalLabel (value : Text) (valid : ValidLabel value) : CanonicalLabel where
  value := removeLabelTargetNameIfRedundant value
  valid := valid.removeLabelTargetNameIfRedundant

/-- Create a label from a text. -/
def newCanonicalLabel (value : Text) : Except InvalidText CanonicalLabel :=
  validate validCanonicalLabelPattern .canonicalLabel value fun matched =>
    newValidCanonicalLabel value (validLabel_of_matches matched)

theorem exists_message_of_removeLabelTargetNameIfRedundant (closed : ']' ∉ message) (rest : Text) :
    ∃ rest', removeLabelTargetNameIfRedundant
        ((Repo.unresolved message).head ++ '/' :: '/' :: rest) =
      (Repo.unresolved message).head ++ '/' :: '/' :: rest' := by
  by_cases early : ':' ∈ message
  · exact ⟨rest, removeLabelTargetNameIfRedundant_of_colon_mem closed early⟩
  by_cases late : ':' ∈ rest
  · obtain ⟨before, after, rfl, first⟩ := eq_append_cons_of_mem late
    have absent : ':' ∉ (Repo.unresolved message).head ++ '/' :: '/' :: before := by
      simpa [Repo.head] using ⟨early, first⟩
    have starts : ['@', '@', '['] <+: (Repo.unresolved message).head ++ '/' :: '/' :: before :=
      ⟨message ++ ']' :: '/' :: '/' :: before, by simp [Repo.head]⟩
    rw [← cons_append, ← cons_append, ← append_assoc,
      removeLabelTargetNameIfRedundant, cut_append absent]
    cases found : cutSuffix ((Repo.unresolved message).head ++ '/' :: '/' :: before) ['/', '/'] with
    | some canonicalRepo =>
      rw [eq_append_of_cutSuffix found] at starts
      simp only [found, if_pos (prefix_of_prefix_append (by decide) starts)]
      exact ⟨before ++ ':' :: after, by simp⟩
    | none =>
      simp only [found]
      split_ifs
      · exact ⟨before, rfl⟩
      · exact ⟨before ++ ':' :: after, by simp⟩
  · have absent : ':' ∉ (Repo.unresolved message).head ++ '/' :: '/' :: rest := by
      simpa [Repo.head] using ⟨early, late⟩
    rw [removeLabelTargetNameIfRedundant, cut_of_not_mem absent]
    exact ⟨rest, rfl⟩

/-- Labels for which resolution has been attempted. -/
def ValidResolvedLabel (value : Text) : Prop :=
  ValidLabel value ∨ ∃ message rest, message ≠ [] ∧ ']' ∉ message ∧
    value = '@' :: '@' :: '[' :: (message ++ ']' :: '/' :: '/' :: rest)

theorem validResolvedLabel_of_unresolved (valid : (Repo.unresolved message).Valid) (rest : Text) :
    ValidResolvedLabel ((Repo.unresolved message).head ++ '/' :: '/' :: rest) :=
  .inr ⟨message, rest, valid.1, valid.2, by
    simp only [Repo.head, cons_append, append_assoc, nil_append]⟩

theorem ValidResolvedLabel.removeLabelTargetNameIfRedundant (valid : ValidResolvedLabel value) :
    ValidResolvedLabel (removeLabelTargetNameIfRedundant value) := by
  rcases valid with valid | ⟨message, rest, nonempty, closed, rfl⟩
  · exact .inl valid.removeLabelTargetNameIfRedundant
  obtain ⟨rest', removed⟩ := exists_message_of_removeLabelTargetNameIfRedundant closed rest
  have same : (Repo.unresolved message).head ++ '/' :: '/' :: rest =
      '@' :: '@' :: '[' :: (message ++ ']' :: '/' :: '/' :: rest) := by
    simp [Repo.head]
  rw [← same, removed]
  exact validResolvedLabel_of_unresolved ⟨nonempty, closed⟩ rest'

/-- Labels are canonical, or their repo is a message. -/
theorem matches_validResolvedLabelPattern_iff {text : Text} :
    Matches validResolvedLabelPattern text ↔ Matches validCanonicalLabelPattern text ∨
      ∃ message names target, (Repo.unresolved message).Valid ∧ ¬(names = [] ∧ target = none) ∧
        ValidPath names target ∧
          text = (Repo.unresolved message).head ++ renderPath names target := by
  rw [validResolvedLabelPattern, matches_alt_iff]
  refine or_congr Iff.rfl ?_
  simp only [exactly, matches_seq_iff, matches_literal_iff, matches_plus_satisfying_iff, bne_iff_ne,
    matches_validAbsoluteLabelPattern_iff]
  constructor
  · rintro ⟨_, _, rfl, ⟨message, _, ⟨nonempty, closed⟩, ⟨_, _, rfl,
      ⟨names, target, present, path, rfl⟩, rfl⟩, rfl⟩, rfl⟩
    refine ⟨message, names, target, ⟨nonempty, fun member => closed _ member rfl⟩, present, path, ?_⟩
    simp only [Repo.head, cons_append, append_assoc, nil_append]
    rfl
  · rintro ⟨message, names, target, ⟨nonempty, closed⟩, present, path, rfl⟩
    refine ⟨['@', '@', '['], _, rfl, ⟨message, _, ⟨nonempty, ?_⟩, ⟨[']'], _, rfl,
      ⟨names, target, present, path, rfl⟩, rfl⟩, rfl⟩, ?_⟩
    · rintro c member rfl
      exact closed member
    · simp [Repo.head]

theorem validResolvedLabel_of_matches (matched : Matches validResolvedLabelPattern text) :
    ValidResolvedLabel text := by
  rcases matches_validResolvedLabelPattern_iff.mp matched with
    canonical | ⟨message, names, target, valid, present, _, rfl⟩
  · exact .inl (validLabel_of_matches canonical)
  · rw [renderPath_of_not present]
    exact validResolvedLabel_of_unresolved valid _

/-- Bring a valid resolved label into normal form. -/
def newValidResolvedLabel (value : Text) (valid : ValidResolvedLabel value) : ResolvedLabel where
  value := removeLabelTargetNameIfRedundant value
  valid := valid.removeLabelTargetNameIfRedundant

/-- Create a resolved label from a text. -/
def newResolvedLabel (value : Text) : Except InvalidText ResolvedLabel :=
  validate validResolvedLabelPattern .resolvedLabel value fun matched =>
    newValidResolvedLabel value (validResolvedLabel_of_matches matched)

/-- A label whose repo is yet to be resolved. -/
structure ApparentLabel where
  value : Text
  deriving DecidableEq, Repr

/-- Bring a valid apparent label into normal form. -/
def newValidApparentLabel (value : Text) : ApparentLabel :=
  ⟨removeLabelTargetNameIfRedundant value⟩

/-- Create an apparent label from a text. -/
def newApparentLabel (value : Text) : Except InvalidText ApparentLabel :=
  validate validApparentLabelPattern .apparentLabel value fun _ => newValidApparentLabel value

/-- Targets of packages have valid labels. -/
theorem CanonicalPackage.validLabel_append (p : CanonicalPackage) (targetName : Text) :
    ValidLabel (p.value ++ (if '/' ∈ p.value then [':'] else ['/', '/', ':']) ++ targetName) := by
  obtain ⟨repo, names, isRepo, components, value_eq⟩ := p.valid
  refine ⟨repo, names, isRepo, components, .inr ⟨targetName, ?_⟩⟩
  simp only [slash_mem_iff isRepo value_eq]
  rw [value_eq, render]
  by_cases empty : names = []
  · subst empty
    simp [join]
  · simp [empty]

/-- The label of a target in a package. -/
def CanonicalPackage.appendTargetName (p : CanonicalPackage) (targetName : Text) :
    CanonicalLabel :=
  newValidCanonicalLabel _ (p.validLabel_append targetName)

end Bonanza.Label
