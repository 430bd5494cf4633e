import Mathlib

/-! # Canonical labels and packages

Labels and packages are strings, modelled as lists of characters. They are validated when created,
after which the names of repos, packages and targets are obtained by searching for separators. The
types guarantee that names do not contain these.

A package is given by its repo and the components of its path (`CanonicalPackage.path`), and is
below another one if the path of the latter comes first (`CanonicalPackage.path_prefix_iff`).
-/

namespace Bonanza.Label

open List Option

/-- A string. -/
abbrev Text := List Char

/-! ## Searching for separators -/

/-- The text before and after the first separator, as found by `strings.IndexByte`. -/
def cut (separator : Char) : Text → Option (Text × Text)
  | [] => none
  | c :: rest =>
    if c = separator then some ([], rest)
    else (cut separator rest).map fun (before, after) => (c :: before, after)

/-- The text after the last separator, as found by `strings.LastIndexByte`. -/
def cutLast (separator : Char) (text : Text) : Option Text :=
  (cut separator text.reverse).map fun (after, _) => after.reverse

/-- `strings.TrimSuffix`. -/
def trimSuffix (text suffix : Text) : Text :=
  if suffix <:+ text then text.take (text.length - suffix.length) else text

variable {separator : Char}

theorem cut_of_not_mem {text : Text} (absent : separator ∉ text) :
    cut separator text = none := by
  induction text with
  | nil => rfl
  | cons c rest ih =>
    rw [mem_cons, not_or] at absent
    simp [cut, Ne.symm absent.1, ih absent.2]

/-- A text is cut at the first separator. -/
theorem cut_append {before : Text} (absent : separator ∉ before) (after : Text) :
    cut separator (before ++ separator :: after) = some (before, after) := by
  induction before with
  | nil => simp only [nil_append, cut, if_true]
  | cons c rest ih =>
    rw [mem_cons, not_or] at absent
    simp [cut, Ne.symm absent.1, ih absent.2]

/-! ## Components of paths -/

/-- The components of a path, as extracted one at a time (`components_eq`). -/
def components : Text → List Text
  | [] => []
  | c :: rest =>
    if c = '/' then [] :: components rest
    else
      match rest with
      | [] => [[c]]
      | d :: tail =>
        if d = '/' then [c] :: components tail
        else (components (d :: tail)).modifyHead (c :: ·)

/-- The path with given components. -/
def join : List Text → Text
  | [] => []
  | [component] => component
  | component :: other :: rest => component ++ '/' :: join (other :: rest)

/-- Names that are valid as a component of a package path. -/
structure IsComponent (component : Text) : Prop where
  nonempty : component ≠ []
  no_slash : '/' ∉ component
  no_colon : ':' ∉ component

theorem components_eq (text : Text) (nonempty : text ≠ []) :
    components text =
      match cut '/' text with
      | none => [text]
      | some (before, after) => before :: components after := by
  induction text with
  | nil => exact absurd rfl nonempty
  | cons c rest ih =>
    by_cases slash : c = '/'
    · subst slash
      rw [components.eq_def]
      simp [cut]
    cases rest with
    | nil => simp only [components, cut, slash, if_false, map_none]
    | cons d tail =>
      by_cases next : d = '/'
      · simp [components, cut, slash, next]
      have unfolded : components (c :: d :: tail) =
          (components (d :: tail)).modifyHead (c :: ·) := by
        rw [components.eq_def]
        simp [slash, next]
      rw [unfolded, ih (cons_ne_nil _ _)]
      rw [show cut '/' (c :: d :: tail) =
        (cut '/' (d :: tail)).map fun (before, after) => (c :: before, after) from
        if_neg slash]
      cases cut '/' (d :: tail) <;> rfl

variable {component : Text} {names : List Text} {repo : Text}

theorem components_of_not_mem (valid : IsComponent component) :
    components component = [component] := by
  rw [components_eq component valid.nonempty, cut_of_not_mem valid.no_slash]

theorem components_append (valid : IsComponent component) (rest : Text) :
    components (component ++ '/' :: rest) = component :: components rest := by
  rw [components_eq _ (append_ne_nil_of_left_ne_nil valid.nonempty _), cut_append valid.no_slash]

variable (valid : ∀ name ∈ names, IsComponent name)

include valid

theorem components_join_append (nonempty : names ≠ []) (rest : Text) :
    components (join names ++ '/' :: rest) = names ++ components rest := by
  induction names with
  | nil => exact absurd rfl nonempty
  | cons name names ih =>
    have first := valid name mem_cons_self
    cases names with
    | nil => exact components_append first rest
    | cons other names =>
      rw [join, append_assoc, cons_append, components_append first,
        ih (forall_mem_cons.mp valid).2 (cons_ne_nil _ _)]
      rfl

/-- Joining components can be undone. -/
theorem components_join : components (join names) = names := by
  induction names with
  | nil => rfl
  | cons name names ih =>
    have first := valid name mem_cons_self
    cases names with
    | nil => exact components_of_not_mem first
    | cons other names =>
      rw [join, components_append first, ih (forall_mem_cons.mp valid).2]

omit valid in
theorem join_append {first second : List Text} (nonempty : first ≠ []) (continued : second ≠ []) :
    join (first ++ second) = join first ++ '/' :: join second := by
  induction first with
  | nil => exact absurd rfl nonempty
  | cons name names ih =>
    cases names with
    | nil =>
      obtain ⟨other, rest, rfl⟩ := exists_cons_of_ne_nil continued
      rfl
    | cons other names =>
      change name ++ '/' :: join ((other :: names) ++ second) = _
      rw [ih (cons_ne_nil _ _), join, append_assoc, cons_append]

theorem exists_join_eq (nonempty : names ≠ []) :
    ∃ body last, last ≠ '/' ∧ join names = body ++ [last] := by
  induction names with
  | nil => exact absurd rfl nonempty
  | cons name names ih =>
    have first := valid name mem_cons_self
    cases names with
    | nil =>
      refine ⟨name.dropLast, name.getLast first.nonempty, ?_, (dropLast_append_getLast _).symm⟩
      exact fun slash => first.no_slash (slash ▸ getLast_mem _)
    | cons other names =>
      obtain ⟨body, last, different, joined⟩ :=
        ih (forall_mem_cons.mp valid).2 (cons_ne_nil _ _)
      refine ⟨name ++ '/' :: body, last, different, ?_⟩
      rw [join, joined, append_assoc, cons_append]

omit valid

theorem not_mem_join (different : separator ≠ '/') (absent : ∀ name ∈ names, separator ∉ name) :
    separator ∉ join names := by
  induction names with
  | nil => exact not_mem_nil
  | cons name names ih =>
    have first := absent name mem_cons_self
    cases names with
    | nil => exact first
    | cons other names =>
      have rest := ih (forall_mem_cons.mp absent).2
      simp only [join, mem_append, mem_cons, not_or]
      exact ⟨first, different, by simpa only [mem_cons] using rest⟩

/-! ## Packages -/

/-- Names that are valid as a canonical repo. -/
structure IsRepo (repo : Text) : Prop where
  nonempty : repo ≠ []
  no_slash : '/' ∉ repo
  no_colon : ':' ∉ repo
  no_bracket : '[' ∉ repo

/-- The package with a given repo and path. -/
def render (repo : Text) (names : List Text) : Text :=
  '@' :: '@' :: (repo ++ if names = [] then [] else '/' :: '/' :: join names)

/-- A package in a canonical repo. -/
structure CanonicalPackage where
  value : Text
  valid : ∃ repo names, IsRepo repo ∧ (∀ name ∈ names, IsComponent name) ∧ value = render repo names
  deriving DecidableEq

namespace CanonicalPackage

variable (p : CanonicalPackage)

/-- The repo of a package. -/
def getCanonicalRepo : Text :=
  let repo := p.value.drop 2
  match cut '/' repo with
  | some (before, _) => before
  | none => repo

/-- The path of a package in its repo. -/
def getPackagePath : Text :=
  match cut '/' p.value with
  | some (_, after) => after.drop 1
  | none => []

/-- The repo of a package, followed by the components of its path. -/
def path : List Text :=
  p.getCanonicalRepo :: components p.getPackagePath

/-- The name of a package is the leading part of names of packages below it. -/
def isBelow (q p : CanonicalPackage) : Prop :=
  ∃ rest, q.value = p.value ++ (if '/' ∈ p.value then ['/'] else ['/', '/']) ++ rest

variable {p q : CanonicalPackage} {repo : Text} {names : List Text}

theorem getCanonicalRepo_eq (isRepo : IsRepo repo) (value_eq : p.value = render repo names) :
    p.getCanonicalRepo = repo := by
  simp only [getCanonicalRepo, value_eq, render, drop_succ_cons, drop_zero]
  split_ifs
  · rw [append_nil, cut_of_not_mem isRepo.no_slash]
  · rw [cut_append isRepo.no_slash]

theorem getPackagePath_eq (isRepo : IsRepo repo) (value_eq : p.value = render repo names) :
    p.getPackagePath = join names := by
  have no_slash : '/' ∉ '@' :: '@' :: repo := by
    simpa only [mem_cons, Char.reduceEq, false_or] using isRepo.no_slash
  simp only [getPackagePath, value_eq, render]
  split_ifs with empty
  · rw [append_nil, cut_of_not_mem no_slash, empty]
    rfl
  · rw [← cons_append, ← cons_append, cut_append no_slash]
    rfl

theorem path_eq (isRepo : IsRepo repo) (valid : ∀ name ∈ names, IsComponent name)
    (value_eq : p.value = render repo names) : p.path = repo :: names := by
  rw [path, getCanonicalRepo_eq isRepo value_eq, getPackagePath_eq isRepo value_eq,
    components_join valid]

theorem path_injective : Function.Injective path := by
  rintro ⟨value, repo, names, isRepo, valid, value_eq⟩
    ⟨otherValue, otherRepo, otherNames, otherIsRepo, otherValid, other_eq⟩ same
  rw [path_eq isRepo valid value_eq, path_eq otherIsRepo otherValid other_eq] at same
  obtain ⟨rfl, rfl⟩ := List.cons.inj same
  subst value_eq other_eq
  rfl

theorem slash_mem_iff (isRepo : IsRepo repo) (value_eq : p.value = render repo names) :
    '/' ∈ p.value ↔ names ≠ [] := by
  rw [value_eq, render]
  split_ifs with empty
  · simpa [empty] using isRepo.no_slash
  · simp [empty]

/-- The leading part of the path of packages below another one. -/
def leading (names : List Text) : Text :=
  if names = [] then [] else join names ++ ['/']

theorem components_leading_append (valid : ∀ name ∈ names, IsComponent name) (rest : Text) :
    components (leading names ++ rest) = names ++ components rest := by
  rw [leading]
  split_ifs with empty
  · simp [empty]
  · rw [append_assoc]
    exact components_join_append valid empty rest

theorem join_append_eq_leading {rest : List Text} (continued : rest ≠ []) :
    join (names ++ rest) = leading names ++ join rest := by
  rw [leading]
  split_ifs with empty
  · simp [empty]
  · rw [join_append empty continued, append_assoc]
    rfl

theorem isBelow_iff (isRepo : IsRepo repo) (value_eq : p.value = render repo names) :
    q.isBelow p ↔ ∃ rest, q.value = '@' :: '@' :: (repo ++ '/' :: '/' :: (leading names ++ rest)) := by
  have separated : p.value ++ (if '/' ∈ p.value then ['/'] else ['/', '/']) =
      '@' :: '@' :: (repo ++ '/' :: '/' :: leading names) := by
    by_cases empty : names = []
    · have absent := (slash_mem_iff isRepo value_eq).not.mpr (not_not.mpr empty)
      rw [if_neg absent]
      simp [value_eq, render, leading, empty]
    · rw [if_pos ((slash_mem_iff isRepo value_eq).mpr empty)]
      simp [value_eq, render, leading, empty]
  simp [isBelow, separated]

/-- A package is the same as another or below it if its path starts with that of the other. -/
theorem path_prefix_iff : p.path <+: q.path ↔ q = p ∨ q.isBelow p := by
  obtain ⟨repo, names, isRepo, valid, value_eq⟩ := p.valid
  obtain ⟨otherRepo, otherNames, otherIsRepo, otherValid, other_eq⟩ := q.valid
  have path_p := path_eq isRepo valid value_eq
  have path_q := path_eq otherIsRepo otherValid other_eq
  rw [isBelow_iff isRepo value_eq]
  constructor
  · rintro ⟨rest, extended⟩
    rw [path_p, path_q, cons_append] at extended
    obtain ⟨rfl, rfl⟩ := List.cons.inj extended
    rcases eq_or_ne rest [] with rfl | continued
    · left
      apply path_injective
      rw [path_p, path_q, append_nil]
    · right
      refine ⟨join rest, ?_⟩
      have nonempty : names ++ rest ≠ [] := append_ne_nil_of_right_ne_nil _ continued
      rw [other_eq, render, if_neg nonempty, join_append_eq_leading continued]
  · rintro (rfl | ⟨rest, extended⟩)
    · exact prefix_refl _
    · have same_repo : q.getCanonicalRepo = repo := by
        simp [getCanonicalRepo, extended, cut_append isRepo.no_slash]
      have same_path : q.getPackagePath = leading names ++ rest := by
        have no_slash : '/' ∉ '@' :: '@' :: repo := by
          simpa only [mem_cons, Char.reduceEq, false_or] using isRepo.no_slash
        simp only [getPackagePath, extended]
        rw [← cons_append, ← cons_append, cut_append no_slash]
        rfl
      rw [path_p, path, same_repo, same_path, components_leading_append valid]
      exact ⟨components rest, rfl⟩

end CanonicalPackage

/-! ## Labels -/

/-- Labels are a package and a target, by default the last component of the package. -/
def ValidLabel (value : Text) : Prop :=
  ∃ repo names, IsRepo repo ∧ (∀ name ∈ names, IsComponent name) ∧
    (value = render repo names ∨
      ∃ target, value = '@' :: '@' :: (repo ++ '/' :: '/' :: (join names ++ ':' :: target)))

/-- The label of a target in a canonical repo. -/
structure CanonicalLabel where
  value : Text
  valid : ValidLabel value
  deriving DecidableEq

theorem not_colon_mem_render (isRepo : IsRepo repo) (valid : ∀ name ∈ names, IsComponent name) :
    ':' ∉ render repo names := by
  have path : ':' ∉ join names :=
    not_mem_join (by decide) fun name member => (valid name member).no_colon
  rw [render]
  split_ifs
  · simpa using isRepo.no_colon
  · simpa using ⟨isRepo.no_colon, path⟩

/-- The package of a label, without its separators if the path is empty. -/
theorem trimSuffix_eq_render {repo : Text} {names : List Text}
    (valid : ∀ name ∈ names, IsComponent name) :
    trimSuffix ('@' :: '@' :: (repo ++ '/' :: '/' :: join names)) ['/', '/'] = render repo names := by
  rw [trimSuffix]
  by_cases empty : names = []
  · subst empty
    have suffix : ['/', '/'] <:+ '@' :: '@' :: (repo ++ '/' :: '/' :: join []) :=
      ⟨'@' :: '@' :: repo, by simp [join]⟩
    rw [if_pos suffix]
    simp [render, join]
  · obtain ⟨body, last, different, joined⟩ := exists_join_eq valid empty
    rw [if_neg, render, if_neg empty]
    rintro ⟨before, ends⟩
    rw [joined] at ends
    have parts : (before ++ ['/']) ++ ['/'] = ('@' :: '@' :: (repo ++ '/' :: '/' :: body)) ++ [last] := by
      simpa using ends
    exact different (singleton_inj.mp (append_inj_right' parts rfl)).symm

namespace CanonicalLabel

variable (l : CanonicalLabel)

/-- The value of `CanonicalLabel.GetCanonicalPackage`. -/
def packageValue : Text :=
  match cut ':' l.value with
  | some (before, _) => trimSuffix before ['/', '/']
  | none => l.value

/-- The package of a label. -/
def getCanonicalPackage : CanonicalPackage where
  value := l.packageValue
  valid := by
    obtain ⟨repo, names, isRepo, valid, rendered | ⟨target, rendered⟩⟩ := l.valid
    · refine ⟨repo, names, isRepo, valid, ?_⟩
      rw [packageValue, rendered, cut_of_not_mem (not_colon_mem_render isRepo valid)]
    · refine ⟨repo, names, isRepo, valid, ?_⟩
      have no_colon : ':' ∉ '@' :: '@' :: (repo ++ '/' :: '/' :: join names) := by
        have path : ':' ∉ join names :=
          not_mem_join (by decide) fun name member => (valid name member).no_colon
        simpa using ⟨isRepo.no_colon, path⟩
      have split : l.value = '@' :: '@' :: (repo ++ '/' :: '/' :: join names) ++ ':' :: target := by
        simpa using rendered
      rw [packageValue, split, cut_append no_colon]
      exact trimSuffix_eq_render valid

/-- The name of a target, which may be implied. -/
def getTargetName : Text :=
  match cut ':' l.value with
  | some (_, after) => after
  | none =>
    match cutLast '/' l.value with
    | some after => after
    | none => l.value.dropWhile (· = '@')

end CanonicalLabel

/-- `label.ResolvedLabel`. If resolution failed, an error message takes the place of the repo. -/
structure ResolvedLabel where
  value : Text
  valid : ValidLabel value ∨ ∃ message rest, message ≠ [] ∧ ']' ∉ message ∧
    value = '@' :: '@' :: '[' :: (message ++ ']' :: '/' :: '/' :: rest)
  deriving DecidableEq

namespace ResolvedLabel

/-- The label as a canonical one, unless its repo is unresolved. -/
def asCanonical (l : ResolvedLabel) : Except Text CanonicalLabel :=
  if canonical : l.value[2]? ≠ some '[' then
    .ok ⟨l.value, by
      rcases l.valid with valid | ⟨message, rest, -, -, value_eq⟩
      · exact valid
      · exact absurd (value_eq ▸ rfl) canonical⟩
  else
    .error (match cut ']' (l.value.drop 3) with
      | some (message, _) => message
      | none => [])

end ResolvedLabel

end Bonanza.Label
