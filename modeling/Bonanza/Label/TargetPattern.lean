import Bonanza.Label.NormalForm

/-! # Target patterns

`CanonicalTargetPattern` and the functions by which it is converted to a label, a wildcard that
applies to a single package, or one that applies to packages recursively. Exactly one of these
conversions succeeds. The package of a recursive target pattern is valid, except if it was mistaken
for one, because the name of the target ends with `/...` (`canonicalTargetPattern_classified`).
-/

namespace Bonanza.Label

open List Regex Repo

/-- Remove a target name that is implied, and normalize wildcards. -/
def removeTargetPatternTargetNameIfRedundant (targetPattern : Text) : Text :=
  match cut ':' targetPattern with
  | none => targetPattern
  | some (package, targetName) =>
    let (canonicalPackage, lastComponent) :=
      match cutSuffix package ['/', '/'] with
      | some canonicalRepo => (canonicalRepo, trimLeftAt canonicalRepo)
      | none => (package, afterLast '/' package)
    if targetName = "all".toList then
      if lastComponent = "...".toList then canonicalPackage else targetPattern
    else if targetName = "all-targets".toList then
      if lastComponent = "...".toList then canonicalPackage ++ ":*".toList else targetPattern
    else if targetName = "*".toList then targetPattern
    else if targetName = lastComponent then canonicalPackage
    else targetPattern

/-- A target pattern with a canonical repo. -/
structure CanonicalTargetPattern where
  value : Text
  deriving DecidableEq, Repr

/-- Bring a valid target pattern into normal form. -/
def newValidCanonicalTargetPattern (value : Text) : CanonicalTargetPattern :=
  ⟨removeTargetPatternTargetNameIfRedundant value⟩

/-- Create a target pattern from a text. -/
def newCanonicalTargetPattern (value : Text) : Except InvalidText CanonicalTargetPattern :=
  validate validCanonicalTargetPatternPattern .canonicalTargetPattern value fun _ =>
    newValidCanonicalTargetPattern value

/-- `strings.HasSuffix`. -/
abbrev hasSuffix (text : Text) (suffix : String) : Prop := suffix.toList <:+ text

namespace CanonicalTargetPattern

variable (tp : CanonicalTargetPattern)

/-- The value of `CanonicalTargetPattern.AsCanonicalLabel`. -/
def asCanonicalLabel : Option Text :=
  if hasSuffix tp.value "/..." ∨ hasSuffix tp.value ":all" ∨ hasSuffix tp.value ":all-targets" ∨
      hasSuffix tp.value ":*" then none
  else some tp.value

/-- The value of `CanonicalTargetPattern.AsSinglePackageTargetPattern`, and whether to include
files. -/
def asSinglePackageTargetPattern : Option (Text × Bool) :=
  match cut ':' tp.value with
  | none => none
  | some (package, targetName) =>
    if hasSuffix package "/..." then none
    else if targetName = "all".toList then
      some (removeLabelTargetNameIfRedundant tp.value, false)
    else if targetName = "all-targets".toList ∨ targetName = "*".toList then
      some (removeLabelTargetNameIfRedundant tp.value, true)
    else none

/-- The value of `CanonicalTargetPattern.AsRecursiveTargetPattern`, and whether to include files. -/
def asRecursiveTargetPattern : Option (Text × Bool) :=
  match cutSuffix tp.value "/...".toList with
  | some packageName => some (trimSuffix packageName ['/'], false)
  | none =>
    match cutSuffix tp.value "/...:*".toList with
    | some packageName => some (trimSuffix packageName ['/'], true)
    | none => none

end CanonicalTargetPattern

open CanonicalTargetPattern

variable {text before after : Text} {repo : Repo} {names : List Text} {target : Option Text}
  {suffix name : Text} {separator c : Char} {implied : Option Text} {tp : CanonicalTargetPattern}

/-! ## Packages -/

theorem matches_validCanonicalPackagePattern_iff :
    Matches validCanonicalPackagePattern text ↔ ∃ name names,
      Matches validCanonicalRepoPattern name ∧ (∀ name ∈ names, IsPackageComponent name) ∧
        text = (canonical name).head ++ renderPath names none := by
  simp only [validCanonicalPackagePattern, exactly, matches_seq_iff, matches_literal_iff,
    matches_optional_iff, matches_validNonEmptyPackageNamePattern_iff]
  constructor
  · rintro ⟨_, _, rfl, ⟨name, _, valid, ⟨_, _, rfl, ⟨names, nonempty, each, rfl⟩, rfl⟩ | rfl, rfl⟩,
      rfl⟩
    · refine ⟨name, names, valid, each, ?_⟩
      rw [renderPath_none nonempty]
      rfl
    · exact ⟨name, [], valid, forall_mem_nil _, rfl⟩
  · rintro ⟨name, names, valid, each, rfl⟩
    refine ⟨['@', '@'], _, rfl, ⟨name, _, valid, ?_, rfl⟩, rfl⟩
    by_cases empty : names = []
    · exact .inr (if_pos ⟨empty, rfl⟩)
    · rw [renderPath_none empty]
      exact .inl ⟨['/', '/'], _, rfl, ⟨names, empty, each, rfl⟩, rfl⟩

/-- Create a package from a text. -/
def newCanonicalPackage (value : Text) : Except InvalidText CanonicalPackage :=
  validate validCanonicalPackagePattern .canonicalPackage value fun matched =>
    { value
      valid := by
        obtain ⟨name, names, valid, each, rfl⟩ :=
          matches_validCanonicalPackagePattern_iff.mp matched
        have isName := isRepoName_of_canonical valid
        refine ⟨name, names,
          ⟨isName.nonempty, isName.no_slash, isName.no_colon, isName.no_bracket⟩,
          fun name member => (each name member).isComponent, ?_⟩
        simp only [render, Repo.head, renderPath, renderTarget, and_true, append_nil, cons_append] }

/-! ## Suffixes of texts with separators -/

theorem suffix_append_cons_iff (absent : separator ∉ suffix) :
    suffix <:+ before ++ separator :: after ↔ suffix <:+ after := by
  constructor
  · intro ends
    have starts : suffix.reverse <+: after.reverse ++ separator :: before.reverse := by
      simpa only [reverse_append, reverse_cons, append_assoc,
        singleton_append] using reverse_prefix.mpr ends
    exact reverse_prefix.mp (prefix_of_prefix_append (by rwa [mem_reverse]) starts)
  · exact fun ends => ends.trans ⟨before ++ [separator], by simp⟩

theorem append_cons_suffix_iff {start rest : Text} (absent : separator ∉ rest)
    (absent' : separator ∉ after) :
    start ++ separator :: rest <:+ before ++ separator :: after ↔
      rest = after ∧ start <:+ before := by
  constructor
  · rintro ⟨front, split⟩
    have parts : after.reverse = rest.reverse ∧ before.reverse = (front ++ start).reverse := by
      have reversed := congrArg (cut separator ∘ List.reverse) split
      simp only [Function.comp, reverse_append, reverse_cons, append_assoc,
        cons_append, nil_append] at reversed
      rw [cut_append (by rwa [mem_reverse]), cut_append (by rwa [mem_reverse])] at reversed
      simp only [Option.some.injEq, Prod.mk.injEq] at reversed
      exact ⟨reversed.1.symm, by rw [reverse_append, ← reversed.2]⟩
    rw [reverse_inj, reverse_inj] at parts
    exact ⟨parts.1.symm, front, parts.2.symm⟩
  · rintro ⟨rfl, front, rfl⟩
    exact ⟨front, by simp⟩

theorem not_suffix_of_not_mem (member : c ∈ suffix) (absent : c ∉ text) : ¬suffix <:+ text :=
  fun ends => absent (ends.mem member)

theorem mem_trimSuffix (absent : c ∉ suffix) (member : c ∈ text) : c ∈ trimSuffix text suffix := by
  rw [trimSuffix]
  split_ifs with ends
  · obtain ⟨front, rfl⟩ := ends
    rw [length_append, Nat.add_sub_cancel, take_left]
    exact (mem_append.mp member).resolve_right absent
  · exact member

/-! ## Removal of redundant names -/

/-- Names of targets that are implied are not kept, except for wildcards. -/
def dropPatternTarget (implied target : Option Text) : Option Text :=
  if target = some "all".toList then
    if implied = some ellipsis then none else target
  else if target = some "all-targets".toList then
    if implied = some ellipsis then some "*".toList else target
  else if target = some "*".toList then target
  else dropImplied implied target

theorem dropPatternTarget_none (implied : Option Text) : dropPatternTarget implied none = none :=
  ite_self none

theorem package_and_last (valid : repo.Valid) (resolved : ∀ message, repo ≠ .unresolved message)
    (components : ∀ name ∈ names, IsComponent name) :
    (match cutSuffix (repo.head ++ '/' :: '/' :: join names) ['/', '/'] with
      | some canonicalRepo => (canonicalRepo, trimLeftAt canonicalRepo)
      | none => (repo.head ++ '/' :: '/' :: join names,
          afterLast '/' (repo.head ++ '/' :: '/' :: join names))) =
      (repo.head ++ renderPath names none, (repo.implied names).getD []) := by
  rw [cutSuffix_package components]
  by_cases empty : names = []
  · subst empty
    rw [if_pos rfl]
    dsimp only
    rw [trimLeftAt_head valid resolved]
    exact Prod.ext_iff.mpr ⟨(append_nil _).symm, rfl⟩
  · have ends := getLast?_eq_some_getLast empty
    rw [if_neg empty]
    rw [afterLast_package components ends, implied_of_getLast? ends, renderPath_none empty,
      Option.getD_some]

theorem eq_getD_iff {target : Text} (nonempty : target ≠ []) :
    target = implied.getD [] ↔ some target = implied := by
  cases implied with
  | none => exact iff_of_false nonempty nofun
  | some name => exact (Option.some.injEq target name).symm ▸ Iff.rfl

theorem Repo.rootTarget_ne_ellipsis (valid : repo.Valid) : repo.rootTarget ≠ some ellipsis := by
  cases repo with
  | apparent name =>
    rintro ⟨⟩
    rw [Valid] at valid
    exact absurd valid (by decide)
  | canonical name =>
    rintro ⟨⟩
    rw [Valid] at valid
    exact absurd valid (by decide)
  | main => rintro ⟨⟩
  | unresolved message => rintro ⟨⟩

theorem renderPath_some_of_implied (valid : repo.Valid)
    (recursive : repo.implied names = some ellipsis) (target : Text) :
    repo.head ++ renderPath names none ++ ':' :: target =
      repo.head ++ renderPath names (some target) := by
  have nonempty : names ≠ [] := by
    rintro rfl
    exact rootTarget_ne_ellipsis valid recursive
  rw [renderPath_none nonempty, renderPath_some]
  simp

/-- Only target names that say nothing are removed. -/
theorem removeTargetPatternTargetNameIfRedundant_eq (valid : repo.Valid)
    (resolved : ∀ message, repo ≠ .unresolved message)
    (components : ∀ name ∈ names, IsComponent name) (nonempty : target ≠ some []) :
    removeTargetPatternTargetNameIfRedundant (repo.head ++ renderPath names target) =
      repo.head ++ renderPath names (dropPatternTarget (repo.implied names) target) := by
  have colon := colon_not_mem_head valid fun message same => absurd same (resolved message)
  rw [removeTargetPatternTargetNameIfRedundant, cut_label colon components]
  cases target with
  | none =>
    rw [Option.map_none, dropPatternTarget_none]
  | some target =>
    rw [Option.map_some]
    dsimp only
    rw [package_and_last valid resolved components]
    have last : (repo.implied names).getD [] = "...".toList ↔
        repo.implied names = some ellipsis := by
      rw [eq_comm, eq_getD_iff (by decide), eq_comm]
      rfl
    have same : target = (repo.implied names).getD [] ↔ some target = repo.implied names :=
      eq_getD_iff fun absent => nonempty (congrArg some absent)
    simp only [last, same, dropPatternTarget, dropImplied, Option.some.injEq]
    split_ifs with all recursive allTargets recursive' wildcard redundant
    · rfl
    · rfl
    · exact renderPath_some_of_implied valid recursive' _
    · rfl
    · rfl
    · rfl
    · rfl

/-! ## The conversions -/

/-- The path of the package or name of the target ends with the component for all packages. -/
def EndsWithEllipsis (names : List Text) : Option Text → Prop
  | none => names.getLast? = some ellipsis
  | some name => '/' :: ellipsis <:+ name

theorem colon_not_mem_wildcard : ∀ name ∈ wildcards, ':' ∉ name := by
  decide

theorem not_ellipsis_suffix_wildcard : ∀ name ∈ wildcards, ¬ '/' :: ellipsis <:+ name := by
  decide

section

variable (colon : ':' ∉ repo.head) (slash : '/' ∉ repo.head)
  (components : ∀ name ∈ names, IsComponent name)

include components in
theorem ellipsis_suffix_package_iff {head : Text} :
    '/' :: ellipsis <:+ head ++ '/' :: '/' :: join names ↔ names.getLast? = some ellipsis := by
  by_cases empty : names = []
  · subst empty
    refine iff_of_false ?_ nofun
    have split : head ++ '/' :: '/' :: join [] = (head ++ ['/']) ++ '/' :: [] := by simp [join]
    rw [split, ← nil_append ('/' :: ellipsis), append_cons_suffix_iff (by decide) not_mem_nil]
    exact fun both => absurd both.1 (by decide)
  · have ends := getLast?_eq_some_getLast empty
    obtain ⟨before, split⟩ := @exists_package_eq head names _ ends
    rw [split, ends, ← nil_append ('/' :: ellipsis), append_cons_suffix_iff (by decide)
      (components _ (getLast_mem empty)).no_slash, Option.some.injEq, eq_comm]
    exact and_iff_left (nil_suffix)

include slash components in
/-- A target pattern ends with the component for all packages, or with its text in a target. -/
theorem ellipsis_suffix_iff :
    '/' :: ellipsis <:+ repo.head ++ renderPath names target ↔ EndsWithEllipsis names target := by
  rcases renderPath_eq_nil_or names target with ⟨⟨rfl, rfl⟩, path⟩ | ⟨present, _⟩
  · rw [path, append_nil]
    exact iff_of_false (not_suffix_of_not_mem mem_cons_self slash) nofun
  rw [renderPath_of_not present]
  cases target with
  | none =>
    rw [renderTarget, append_nil]
    exact ellipsis_suffix_package_iff components
  | some name =>
    rw [renderTarget, ← cons_append, ← cons_append, ← append_assoc,
      suffix_append_cons_iff (by decide), EndsWithEllipsis]

include colon components in
theorem colon_suffix_iff (start : Text) {rest : Text} (no_colon : ∀ name ∈ target, ':' ∉ name)
    (absent : ':' ∉ rest) :
    start ++ ':' :: rest <:+ repo.head ++ renderPath names target ↔
      target = some rest ∧ start <:+ repo.head ++ '/' :: '/' :: join names := by
  cases target with
  | none =>
    refine iff_of_false (not_suffix_of_not_mem (mem_append_right _ mem_cons_self) ?_)
      fun both => nomatch both.1
    rcases renderPath_eq_nil_or names none with ⟨_, path⟩ | ⟨present, _⟩
    · rwa [path, append_nil]
    · rw [renderPath_of_not present, renderTarget, append_nil]
      simpa using ⟨colon, colon_not_mem_join components⟩
  | some name =>
    rw [renderPath_some, ← cons_append, ← cons_append, ← append_assoc,
      append_cons_suffix_iff absent (no_colon name rfl), Option.some.injEq, eq_comm]

namespace CanonicalTargetPattern

variable {tp : CanonicalTargetPattern} (no_colon : ∀ name ∈ target, ':' ∉ name)
  (value_eq : tp.value = repo.head ++ renderPath names target)

include colon slash components no_colon value_eq

theorem suffixes_iff :
    (hasSuffix tp.value "/..." ∨ hasSuffix tp.value ":all" ∨ hasSuffix tp.value ":all-targets" ∨
      hasSuffix tp.value ":*") ↔
      EndsWithEllipsis names target ∨ ∃ name ∈ target, name ∈ wildcards := by
  have wildcard : ∀ {rest : Text}, ':' ∉ rest →
      (':' :: rest <:+ tp.value ↔ target = some rest) := by
    intro rest absent
    rw [value_eq, ← nil_append (':' :: rest), colon_suffix_iff colon components [] no_colon absent]
    exact and_iff_left nil_suffix
  have ends : hasSuffix tp.value "/..." ↔ EndsWithEllipsis names target :=
    value_eq ▸ ellipsis_suffix_iff slash components
  have all : hasSuffix tp.value ":all" ↔ target = some "all".toList := wildcard (by decide)
  have allTargets : hasSuffix tp.value ":all-targets" ↔ target = some "all-targets".toList :=
    wildcard (by decide)
  have star : hasSuffix tp.value ":*" ↔ target = some "*".toList := wildcard (by decide)
  rw [ends, all, allTargets, star]
  cases target with
  | none => simp
  | some name => simp [wildcards]

theorem classify_label (last : names.getLast? ≠ some ellipsis)
    (given : ∀ name ∈ target, ¬ '/' :: ellipsis <:+ name ∧ name ∉ wildcards) :
    tp.asCanonicalLabel = some tp.value ∧ tp.asSinglePackageTargetPattern = none ∧
      tp.asRecursiveTargetPattern = none := by
  have suffixes := suffixes_iff colon slash components no_colon value_eq
  have starred := colon_suffix_iff colon components ('/' :: ellipsis) no_colon
    (show ':' ∉ "*".toList by decide)
  have none_of : ¬(hasSuffix tp.value "/..." ∨ hasSuffix tp.value ":all" ∨
      hasSuffix tp.value ":all-targets" ∨ hasSuffix tp.value ":*") := by
    rw [suffixes, not_or]
    cases target with
    | none => exact ⟨last, nofun⟩
    | some name =>
      refine ⟨(given name rfl).1, ?_⟩
      rintro ⟨_, ⟨⟩, wildcard⟩
      exact (given name rfl).2 wildcard
  refine ⟨if_neg none_of, ?_, ?_⟩
  · rw [asSinglePackageTargetPattern, value_eq, cut_label colon components]
    cases target with
    | none => rfl
    | some name =>
      have wildcard := (given name rfl).2
      simp only [mem_wildcards_iff, not_or] at wildcard
      rw [Option.map_some]
      simp only [wildcard, or_self, if_false, ite_self]
  · rw [asRecursiveTargetPattern, cutSuffix, if_neg (not_or.mp none_of).1, cutSuffix, if_neg]
    rw [value_eq]
    intro ends
    exact last ((ellipsis_suffix_package_iff components).mp (starred.mp ends).2)

theorem classify_single (last : names.getLast? ≠ some ellipsis) (given : target = some name)
    (wildcard : name ∈ wildcards) :
    tp.asCanonicalLabel = none ∧
      tp.asSinglePackageTargetPattern =
        some (removeLabelTargetNameIfRedundant tp.value, decide (name ≠ "all".toList)) ∧
      tp.asRecursiveTargetPattern = none := by
  subst given
  have suffixes := suffixes_iff colon slash components no_colon value_eq
  have starred := colon_suffix_iff colon components ('/' :: ellipsis) no_colon
    (show ':' ∉ "*".toList by decide)
  have package : ¬hasSuffix (repo.head ++ '/' :: '/' :: join names) "/..." :=
    (ellipsis_suffix_package_iff components).not.mpr last
  refine ⟨if_pos (suffixes.mpr (.inr ⟨name, rfl, wildcard⟩)), ?_, ?_⟩
  · rw [asSinglePackageTargetPattern, value_eq, cut_label colon components, Option.map_some]
    simp only [if_neg package]
    rcases mem_wildcards_iff.mp wildcard with rfl | rfl | rfl <;> rfl
  · rw [asRecursiveTargetPattern, cutSuffix, if_neg, cutSuffix, if_neg]
    · rw [value_eq]
      intro ends
      exact package (starred.mp ends).2
    · rw [value_eq]
      exact (ellipsis_suffix_iff slash components).not.mpr
        (not_ellipsis_suffix_wildcard name wildcard)

theorem classify_mistaken (given : target = some name) (ends : '/' :: ellipsis <:+ name) :
    tp.asCanonicalLabel = none ∧ tp.asSinglePackageTargetPattern = none ∧
      ∃ package, ':' ∈ package ∧ tp.asRecursiveTargetPattern = some (package, false) := by
  subst given
  have suffixes := suffixes_iff colon slash components no_colon value_eq
  have long : name ∉ wildcards := fun wildcard => not_ellipsis_suffix_wildcard name wildcard ends
  refine ⟨if_pos (suffixes.mpr (.inl ends)), ?_, ?_⟩
  · simp only [mem_wildcards_iff, not_or] at long
    rw [asSinglePackageTargetPattern, value_eq, cut_label colon components, Option.map_some]
    simp only [long, or_self, if_false, ite_self]
  · obtain ⟨front, rfl⟩ := ends
    have split : tp.value = (repo.head ++ '/' :: '/' :: (join names ++ ':' :: front)) ++
        "/...".toList := by
      rw [value_eq, renderPath_some]
      simp only [append_assoc, cons_append]
      rfl
    refine ⟨_, ?_, by rw [asRecursiveTargetPattern, split, cutSuffix_append]⟩
    refine mem_trimSuffix (by decide) ?_
    simp only [mem_append, mem_cons, true_or, or_true]

end CanonicalTargetPattern

end

theorem exists_ellipsis_eq {head : Text} {base : List Text}
    (components : ∀ name ∈ base, IsComponent name) :
    ∃ package, head ++ '/' :: '/' :: join (base ++ [ellipsis]) = package ++ '/' :: ellipsis ∧
      trimSuffix package ['/'] = head ++ renderPath base none := by
  by_cases empty : base = []
  · subst empty
    refine ⟨head ++ ['/'], ?_, ?_⟩
    · simp [join]
    · rw [trimSuffix, if_pos (suffix_append _ _), length_append, Nat.add_sub_cancel, take_left]
      exact (append_nil head).symm
  · obtain ⟨body, last, different, joined⟩ := exists_join_eq components empty
    refine ⟨head ++ '/' :: '/' :: join base, ?_, ?_⟩
    · rw [join_append empty (cons_ne_nil _ _), append_assoc]
      rfl
    · rw [trimSuffix, if_neg, renderPath_none empty]
      rintro ⟨before, ends⟩
      have parts : before ++ ['/'] = (head ++ '/' :: '/' :: body) ++ [last] := by
        rw [joined] at ends
        simpa only [append_assoc, cons_append] using ends
      exact different (singleton_inj.mp (append_inj_right' parts rfl)).symm

theorem CanonicalTargetPattern.classify_recursive (colon : ':' ∉ repo.head)
    (slash : '/' ∉ repo.head) {base : List Text} (components : ∀ name ∈ base, IsComponent name)
    (wildcard : ∀ name ∈ target, name = "*".toList)
    (value_eq : tp.value = repo.head ++ renderPath (base ++ [ellipsis]) target) :
    tp.asCanonicalLabel = none ∧ tp.asSinglePackageTargetPattern = none ∧
      tp.asRecursiveTargetPattern = some (repo.head ++ renderPath base none, target.isSome) := by
  have components' : ∀ name ∈ base ++ [ellipsis], IsComponent name :=
    forall_mem_append.mpr ⟨components, forall_mem_singleton.mpr
      (isComponent_of_dots (by decide) fun _ => eq_of_mem_ellipsis)⟩
  have last : (base ++ [ellipsis]).getLast? = some ellipsis := getLast?_concat
  have no_colon : ∀ name ∈ target, ':' ∉ name := by
    intro name member
    rw [wildcard name member]
    decide
  have suffixes := suffixes_iff colon slash components' no_colon value_eq
  have package : hasSuffix (repo.head ++ '/' :: '/' :: join (base ++ [ellipsis])) "/..." :=
    (ellipsis_suffix_package_iff components').mpr last
  refine ⟨if_pos (suffixes.mpr ?_), ?_, ?_⟩
  · cases target with
    | none => exact .inl last
    | some name =>
      refine .inr ⟨name, rfl, ?_⟩
      rw [wildcard name rfl]
      decide
  · rw [asSinglePackageTargetPattern, value_eq, cut_label colon components']
    cases target with
    | none => rfl
    | some name =>
      rw [Option.map_some]
      simp only [if_pos package]
  · obtain ⟨package, split, trimmed⟩ := @exists_ellipsis_eq repo.head base components
    cases target with
    | none =>
      have split' : tp.value = package ++ "/...".toList := by
        rw [value_eq, renderPath_none (append_ne_nil_of_right_ne_nil _ (cons_ne_nil _ _))]
        exact split
      rw [asRecursiveTargetPattern, split', cutSuffix_append]
      exact congrArg (fun base => some (base, false)) trimmed
    | some name =>
      obtain rfl := wildcard name rfl
      have split' : tp.value = package ++ "/...:*".toList := by
        rw [value_eq, renderPath_some, ← cons_append, ← cons_append,
          ← append_assoc, split, append_assoc]
        rfl
      have other : ¬hasSuffix tp.value "/..." := by
        rw [value_eq]
        exact (ellipsis_suffix_iff slash components').not.mpr
          (not_ellipsis_suffix_wildcard _ (by decide))
      rw [asRecursiveTargetPattern, cutSuffix, if_neg other, split', cutSuffix_append]
      exact congrArg (fun base => some (base, true)) trimmed

/-! ## Classification of target patterns -/

theorem matches_validCanonicalTargetPatternPattern_iff :
    Matches validCanonicalTargetPatternPattern text ↔ ∃ name names target,
      Matches validCanonicalRepoPattern name ∧ ValidPatternPath names target ∧
        text = (canonical name).head ++ renderPath names target :=
  matches_canonical_iff matches_validMaybeAbsoluteTargetPatternPattern_iff

/-- The target pattern has a target whose name ends like a recursive target pattern. -/
def TargetNameEndsWithEllipsis (text : Text) : Prop :=
  ∃ package name, cut ':' text = some (package, name) ∧ '/' :: ellipsis <:+ name

/-- The label is accepted, and not affected by being parsed. -/
def IsNormalLabel (label : Text) : Prop :=
  ∃ l, newCanonicalLabel label = .ok l ∧ l.value = label

theorem isNormalLabel_removed {s : Text} (matched : Matches validCanonicalLabelPattern s) :
    IsNormalLabel (removeLabelTargetNameIfRedundant s) := by
  obtain ⟨d, name, canonical, denotes⟩ := matches_validCanonicalLabelPattern_iff_denotes.mp matched
  have matched' := matches_validCanonicalLabelPattern_iff_denotes.mpr
    ⟨d, name, canonical, denotes.removed⟩
  exact ⟨_, validate_eq_ok_iff.mpr ⟨matched', rfl⟩, denotes.removeLabelTargetNameIfRedundant_idem⟩

theorem ValidPath.getLast?_ne_ellipsis (path : ValidPath names target) :
    names.getLast? ≠ some ellipsis := by
  intro ends
  obtain ⟨c, member, notDot⟩ := (path.names _ (mem_of_getLast? ends)).notDots
  exact notDot (eq_of_mem_ellipsis member)

theorem ValidPath.implied_ne_ellipsis (path : ValidPath names target) (valid : repo.Valid) :
    repo.implied names ≠ some ellipsis := by
  intro implied
  rw [Repo.implied, Option.or_eq_some_iff] at implied
  rcases implied with last | ⟨_, root⟩
  · exact path.getLast?_ne_ellipsis last
  · exact Repo.rootTarget_ne_ellipsis valid root

theorem Repo.slash_not_mem_implied (valid : repo.Valid)
    (components : ∀ name ∈ names, IsComponent name) {last : Text}
    (implied : repo.implied names = some last) : '/' ∉ last := by
  rw [Repo.implied, Option.or_eq_some_iff] at implied
  rcases implied with ends | ⟨_, root⟩
  · exact (components last (mem_of_getLast? ends)).no_slash
  · exact (Repo.isRepoName valid root).no_slash

theorem dropPatternTarget_of_wildcard (other : implied ≠ some ellipsis)
    (wildcard : name ∈ wildcards) :
    dropPatternTarget implied (some name) = some name := by
  rw [dropPatternTarget, if_neg other, if_neg other]
  rcases mem_wildcards_iff.mp wildcard with rfl | rfl | rfl
  · rfl
  · rw [if_neg (by decide), if_pos rfl]
  · rw [if_neg (by decide), if_neg (by decide), if_pos rfl]

theorem dropPatternTarget_of_not_wildcard (other : name ∉ wildcards) :
    dropPatternTarget implied (some name) = dropImplied implied (some name) := by
  simp only [mem_wildcards_iff, not_or] at other
  simp only [dropPatternTarget, Option.some.injEq, other, if_false]

theorem mem_of_mem_dropImplied (member : name ∈ dropImplied implied target) : name ∈ target := by
  rw [dropImplied] at member
  split_ifs at member
  · cases member
  · exact member

theorem dropPatternTarget_of_recursive (wildcard : ∀ name ∈ target, name ∈ wildcards) :
    dropPatternTarget (some ellipsis) target =
      if target = some "all-targets".toList ∨ target = some "*".toList then some "*".toList
      else none := by
  cases target with
  | none => rfl
  | some name =>
    rcases mem_wildcards_iff.mp (wildcard name rfl) with rfl | rfl | rfl <;> decide

/-- The forms of target patterns that include targets that are files. -/
def IncludesFiles (text : Text) : Prop :=
  hasSuffix text ":all-targets" ∨ hasSuffix text ":*"

/-- How a target pattern created from a text is converted: exactly one conversion succeeds, labels
are normal, files are included if the text says so, and the package of a recursive target pattern is
valid unless it contains the name of a target. The latter happens to all texts in which that name
ends with an ellipsis. -/
structure Classified (text : Text) (tp : CanonicalTargetPattern) : Prop where
  exactlyOne :
    tp.asCanonicalLabel ≠ none ∧ tp.asSinglePackageTargetPattern = none ∧
        tp.asRecursiveTargetPattern = none ∨
      tp.asCanonicalLabel = none ∧ tp.asSinglePackageTargetPattern ≠ none ∧
        tp.asRecursiveTargetPattern = none ∨
      tp.asCanonicalLabel = none ∧ tp.asSinglePackageTargetPattern = none ∧
        tp.asRecursiveTargetPattern ≠ none
  label : ∀ label, tp.asCanonicalLabel = some label → IsNormalLabel label
  single : ∀ label files, tp.asSinglePackageTargetPattern = some (label, files) →
    IsNormalLabel label ∧ (files = true ↔ IncludesFiles text)
  recursive : ∀ package files, tp.asRecursiveTargetPattern = some (package, files) →
    ((∃ p, newCanonicalPackage package = .ok p) ↔ ¬TargetNameEndsWithEllipsis text) ∧
      (files = true ↔ IncludesFiles text)
  mistaken : TargetNameEndsWithEllipsis text → tp.asRecursiveTargetPattern ≠ none

theorem Classified.of_eq {tp : CanonicalTargetPattern} {first : Option Text}
    {second third : Option (Text × Bool)}
    (conversions : tp.asCanonicalLabel = first ∧ tp.asSinglePackageTargetPattern = second ∧
      tp.asRecursiveTargetPattern = third)
    (exactlyOne : first ≠ none ∧ second = none ∧ third = none ∨
      first = none ∧ second ≠ none ∧ third = none ∨ first = none ∧ second = none ∧ third ≠ none)
    (label : ∀ label ∈ first, IsNormalLabel label)
    (single : ∀ result ∈ second, IsNormalLabel result.1 ∧ (result.2 = true ↔ IncludesFiles text))
    (recursive : ∀ result ∈ third,
      ((∃ p, newCanonicalPackage result.1 = .ok p) ↔ ¬TargetNameEndsWithEllipsis text) ∧
        (result.2 = true ↔ IncludesFiles text))
    (mistaken : TargetNameEndsWithEllipsis text → third ≠ none) : Classified text tp := by
  obtain ⟨rfl, rfl, rfl⟩ := conversions
  exact ⟨exactlyOne, label, fun _ _ => single _, fun _ _ => recursive _, mistaken⟩

theorem newCanonicalPackage_isOk_iff {value : Text} :
    (∃ p, newCanonicalPackage value = .ok p) ↔ Matches validCanonicalPackagePattern value := by
  simp only [newCanonicalPackage, validate_eq_ok_iff]
  constructor
  · rintro ⟨_, matched, _⟩
    exact matched
  · exact fun matched => ⟨_, matched, rfl⟩

section

variable {name : Text} (valid : (Repo.canonical name).Valid)

include valid

theorem includesFiles_iff (components : ∀ name ∈ names, IsComponent name)
    (no_colon : ∀ name ∈ target, ':' ∉ name) :
    IncludesFiles ((canonical name).head ++ renderPath names target) ↔
      target = some "all-targets".toList ∨ target = some "*".toList := by
  have colon := @colon_not_mem_head (.canonical name) valid nofun
  have wildcard := fun rest => @colon_suffix_iff _ _ target colon components [] rest no_colon
  refine or_congr ((wildcard "all-targets".toList (by decide)).trans ?_)
    ((wildcard "*".toList (by decide)).trans ?_)
  · exact and_iff_left nil_suffix
  · exact and_iff_left nil_suffix

theorem targetNameEndsWithEllipsis_iff (components : ∀ name ∈ names, IsComponent name) :
    TargetNameEndsWithEllipsis ((canonical name).head ++ renderPath names target) ↔
      ∃ name ∈ target, '/' :: ellipsis <:+ name := by
  have colon := @colon_not_mem_head (.canonical name) valid nofun
  rw [TargetNameEndsWithEllipsis, cut_label colon components]
  cases target with
  | none => simp
  | some name => simp

theorem classified_of_recursive (path : ValidRecursivePath names target) :
    Classified ((canonical name).head ++ renderPath names target)
      (newValidCanonicalTargetPattern ((canonical name).head ++ renderPath names target)) := by
  have components := ValidPatternPath.isComponent (.inr path)
  have no_colon : ∀ name ∈ target, ':' ∉ name := by
    intro name member
    exact colon_not_mem_wildcard name (path.target name member)
  obtain ⟨base, each, rfl⟩ := path.names
  have implied : (canonical name).implied (base ++ [ellipsis]) = some ellipsis :=
    implied_of_getLast? getLast?_concat
  have nonempty : target ≠ some [] := by
    rintro rfl
    exact absurd (path.target [] rfl) (by decide)
  have value_eq := @removeTargetPatternTargetNameIfRedundant_eq (.canonical name) _ _ valid nofun
    components nonempty
  rw [implied, dropPatternTarget_of_recursive path.target] at value_eq
  refine Classified.of_eq (classify_recursive
    (colon_not_mem_head valid nofun) (slash_not_mem_head valid nofun)
    (fun name member => (each name member).isComponent) ?_ value_eq) (.inr (.inr ⟨rfl, rfl, nofun⟩))
    nofun nofun ?_ fun _ => Option.some_ne_none _
  · split_ifs
    · rintro name ⟨⟩
      rfl
    · nofun
  rintro _ ⟨⟩
  constructor
  · rw [newCanonicalPackage_isOk_iff, targetNameEndsWithEllipsis_iff valid components]
    refine iff_of_true (matches_validCanonicalPackagePattern_iff.mpr ⟨name, base, valid, each, rfl⟩) ?_
    rintro ⟨name, member, ends⟩
    exact not_ellipsis_suffix_wildcard name (path.target name member) ends
  · rw [includesFiles_iff valid components no_colon]
    split_ifs with files
    · exact iff_of_true rfl files
    · exact iff_of_false nofun files

/-- Target patterns that are labels are recognized, unless their target is named like a wildcard. -/
theorem classified_of_label (path : ValidPath names target) :
    Classified ((canonical name).head ++ renderPath names target)
      (newValidCanonicalTargetPattern ((canonical name).head ++ renderPath names target)) := by
  have resolved : ∀ message, canonical name ≠ .unresolved message := by rintro _ ⟨⟩
  have colon := colon_not_mem_head valid fun message same => absurd same (resolved message)
  have slash := @slash_not_mem_head (.canonical name) valid resolved
  have components := path.isComponent
  have last := path.getLast?_ne_ellipsis
  have no_colon : ∀ name ∈ target, ':' ∉ name := fun name member => (path.target name member).no_colon
  have value_eq := @removeTargetPatternTargetNameIfRedundant_eq (.canonical name) _ _ valid resolved
    components path.ne_some_nil
  have matched := matches_validCanonicalLabelPattern_iff.mpr ⟨name, names, target, valid, path, rfl⟩
  have normal := isNormalLabel_removed matched
  have removed := removeLabelTargetNameIfRedundant_eq valid colon components path.ne_some_nil
  by_cases wildcard : ∃ given ∈ target, given ∈ wildcards
  · obtain ⟨given, rfl, wildcard⟩ := wildcard
    rw [dropPatternTarget_of_wildcard (path.implied_ne_ellipsis valid) wildcard] at value_eq
    refine Classified.of_eq (classify_single colon slash components
      no_colon value_eq last rfl wildcard) (.inr (.inl ⟨rfl, Option.some_ne_none _, rfl⟩))
      (by rintro _ ⟨⟩) ?_ (by rintro _ ⟨⟩) fun ends => ?_
    · rintro _ ⟨⟩
      constructor
      · change IsNormalLabel (removeLabelTargetNameIfRedundant
          (removeTargetPatternTargetNameIfRedundant _))
        rwa [value_eq]
      · rw [includesFiles_iff valid components no_colon, decide_eq_true_eq]
        rcases mem_wildcards_iff.mp wildcard with rfl | rfl | rfl <;> decide
    · obtain ⟨_, ⟨⟩, ends⟩ := (targetNameEndsWithEllipsis_iff valid components).mp ends
      exact absurd ends (not_ellipsis_suffix_wildcard _ wildcard)
  · have kept : dropPatternTarget ((canonical name).implied names) target =
        dropImplied ((canonical name).implied names) target := by
      cases target with
      | none => exact (dropPatternTarget_none _).trans (ite_self none).symm
      | some given =>
        exact dropPatternTarget_of_not_wildcard fun member => wildcard ⟨given, rfl, member⟩
    rw [kept] at value_eq
    by_cases ends : ∃ given ∈ target, '/' :: ellipsis <:+ given
    · obtain ⟨given, rfl, ends⟩ := ends
      have different : some given ≠ (canonical name).implied names := by
        intro implied
        refine slash_not_mem_implied valid components implied.symm ?_
        exact ends.mem mem_cons_self
      rw [dropImplied, if_neg different] at value_eq
      obtain ⟨first, second, package, colon_mem, third⟩ := classify_mistaken
        colon slash components no_colon value_eq rfl ends
      refine Classified.of_eq ⟨first, second, third⟩ (.inr (.inr ⟨rfl, rfl, Option.some_ne_none _⟩))
        (by rintro _ ⟨⟩) (by rintro _ ⟨⟩) ?_ fun _ => Option.some_ne_none _
      rintro _ ⟨⟩
      constructor
      · rw [newCanonicalPackage_isOk_iff, targetNameEndsWithEllipsis_iff valid components]
        refine iff_of_false (fun matched => ?_) (not_not.mpr ⟨given, rfl, ends⟩)
        exact matched.not_mem (by decide) colon_mem
      · rw [includesFiles_iff valid components no_colon]
        refine iff_of_false Bool.false_ne_true ?_
        rintro (⟨⟨⟩⟩ | ⟨⟨⟩⟩)
        · exact wildcard ⟨_, rfl, by decide⟩
        · exact wildcard ⟨_, rfl, by decide⟩
    · rw [removed, ← value_eq] at normal
      refine Classified.of_eq (classify_label colon slash components
        ?_ value_eq last ?_) (.inl ⟨Option.some_ne_none _, rfl, rfl⟩) ?_
        (by rintro _ ⟨⟩) (by rintro _ ⟨⟩)
        fun mistaken => absurd ((targetNameEndsWithEllipsis_iff valid components).mp mistaken) ends
      · intro given member
        exact no_colon given (mem_of_mem_dropImplied member)
      · intro given member
        have member := mem_of_mem_dropImplied member
        exact ⟨fun suffix => ends ⟨given, member, suffix⟩,
          fun other => wildcard ⟨given, member, other⟩⟩
      · rintro _ ⟨⟩
        exact normal

end

/-- Exactly one of the conversions of a target pattern succeeds. -/
theorem canonicalTargetPattern_classified (s : Text) (tp : CanonicalTargetPattern)
    (accepted : newCanonicalTargetPattern s = .ok tp) : Classified s tp := by
  obtain ⟨matched, rfl⟩ := validate_eq_ok_iff.mp accepted
  obtain ⟨name, names, target, valid, path | path, rfl⟩ :=
    matches_validCanonicalTargetPatternPattern_iff.mp matched
  · exact classified_of_label valid path
  · exact classified_of_recursive valid path

/-- A recursive target pattern that includes files. -/
theorem canonicalTargetPattern_classified_sample :
    newCanonicalTargetPattern "@@a+//b/...:all-targets".toList = .ok ⟨"@@a+//b/...:*".toList⟩ ∧
      Classified "@@a+//b/...:all-targets".toList ⟨"@@a+//b/...:*".toList⟩ := by
  have accepted : newCanonicalTargetPattern "@@a+//b/...:all-targets".toList =
      .ok ⟨"@@a+//b/...:*".toList⟩ := by decide +kernel
  exact ⟨accepted, canonicalTargetPattern_classified _ _ accepted⟩

/-- A label is mistaken for a recursive target pattern. -/
theorem asRecursiveTargetPattern_accepts_label :
    newCanonicalTargetPattern "@@a+//b:c/...".toList = .ok ⟨"@@a+//b:c/...".toList⟩ ∧
      asRecursiveTargetPattern ⟨"@@a+//b:c/...".toList⟩ = some ("@@a+//b:c".toList, false) ∧
      (newCanonicalPackage "@@a+//b:c".toList).isOk = false ∧
      (newCanonicalLabel "@@a+//b:c/...".toList).isOk = true := by
  decide +kernel

end Bonanza.Label
