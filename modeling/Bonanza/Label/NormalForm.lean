import Bonanza.Label.Values

/-! # The normal form of labels

A label denotes a repo, the path of a package, and the name of a target (`Denotes`). Labels that
denote the same are equal, provided that they do not contain an error message in which
a colon occurs (`labels_equal_iff_denote_same`).
-/

namespace Bonanza.Label

open List Option Regex Repo CanonicalLabel

/-- What is denoted by a label. -/
structure Meaning where
  repo : Repo
  package : List Text
  target : Text
  deriving DecidableEq

namespace Meaning

/-- The target implied by the repo and package. -/
def implied (d : Meaning) : Option Text := d.repo.implied d.package

/-- The shortest label that denotes the same. -/
def spelling (d : Meaning) : Text :=
  d.repo.head ++ renderPath d.package (if d.implied = some d.target then none else some d.target)

end Meaning

/-- A label consists of a repo, the path of a package and the name of a target, unless implied. -/
def Denotes (text : Text) (d : Meaning) : Prop :=
  d.repo.Valid ∧ ∃ target, ValidPath d.package target ∧ target.or d.implied = some d.target ∧
    text = d.repo.head ++ renderPath d.package target

variable {text : Text} {d d' : Meaning} {repo repo' : Repo} {names names' : List Text}
  {target target' : Option Text} {s : Text} {name : Text} {l : CanonicalLabel}

/-! ## Labels that are accepted -/

theorem exists_denotes (valid : repo.Valid) (path : ValidPath names target)
    (present : target ≠ none ∨ repo.implied names ≠ none) :
    ∃ d, d.repo = repo ∧ Denotes (repo.head ++ renderPath names target) d := by
  obtain ⟨name, named⟩ : ∃ name, target.or (repo.implied names) = some name := by
    cases target with
    | some name => exact ⟨name, rfl⟩
    | none => exact ne_none_iff_exists'.mp (present.resolve_left fun absent => absent rfl)
  exact ⟨⟨repo, names, name⟩, rfl, valid, target, path, named, rfl⟩

theorem Denotes.present (denotes : target.or d.implied = some d.target)
    (unnamed : d.repo.rootTarget = none) : ¬(d.package = [] ∧ target = none) := by
  rintro ⟨empty, rfl⟩
  rw [Meaning.implied, implied, empty, unnamed] at denotes
  cases denotes

theorem implied_ne_none (present : ¬(names = [] ∧ target = none)) :
    target ≠ none ∨ repo.implied names ≠ none := by
  by_cases empty : names = []
  · exact .inl fun absent => present ⟨empty, absent⟩
  · right
    rw [implied_of_getLast? (getLast?_eq_some_getLast empty)]
    nofun

theorem matches_validCanonicalLabelPattern_iff_denotes :
    Matches validCanonicalLabelPattern text ↔
      ∃ d name, d.repo = .canonical name ∧ Denotes text d := by
  rw [matches_validCanonicalLabelPattern_iff]
  constructor
  · rintro ⟨name, names, target, valid, path, rfl⟩
    obtain ⟨d, same, denotes⟩ :=
      @exists_denotes (.canonical name) _ _ valid path (.inr (by
        rw [implied, ne_eq, or_eq_none_iff]
        exact fun both => Option.some_ne_none _ both.2))
    exact ⟨d, name, same, denotes⟩
  · rintro ⟨⟨_, names, _⟩, name, rfl, valid, target, path, _, rfl⟩
    exact ⟨name, names, target, valid, path, rfl⟩

theorem matches_validResolvedLabelPattern_iff_denotes :
    Matches validResolvedLabelPattern text ↔ ∃ d, Denotes text d ∧
      ((∃ name, d.repo = .canonical name) ∨ ∃ message, d.repo = .unresolved message) := by
  rw [matches_validResolvedLabelPattern_iff, matches_validCanonicalLabelPattern_iff_denotes]
  constructor
  · rintro (⟨d, name, same, denotes⟩ | ⟨message, names, target, valid, present, path, rfl⟩)
    · exact ⟨d, denotes, .inl ⟨name, same⟩⟩
    · obtain ⟨d, same, denotes⟩ := exists_denotes valid path (implied_ne_none present)
      exact ⟨d, denotes, .inr ⟨message, same⟩⟩
  · rintro ⟨d, denotes, ⟨name, same⟩ | ⟨message, same⟩⟩
    · exact .inl ⟨d, name, same, denotes⟩
    · obtain ⟨valid, target, path, named, rfl⟩ := denotes
      have present := Denotes.present named (same ▸ rfl)
      rw [same] at valid ⊢
      exact .inr ⟨message, d.package, target, valid, present, path, rfl⟩

/-! ## Removal of redundant names -/

theorem dropImplied_eq (named : target.or d.implied = some d.target) :
    dropImplied d.implied target = if d.implied = some d.target then none else some d.target := by
  cases target with
  | none =>
    rw [none_or] at named
    rw [if_pos named, dropImplied, ite_self]
  | some name =>
    cases named
    rw [dropImplied]
    simp [eq_comm]

theorem ValidPath.ne_some_nil (path : ValidPath names target) : target ≠ some [] := by
  rintro rfl
  exact (path.target [] rfl).ne_nil rfl

theorem Denotes.removeLabelTargetNameIfRedundant (denotes : Denotes text d)
    (colon : ∀ message, d.repo = .unresolved message → ':' ∉ message) :
    removeLabelTargetNameIfRedundant text = d.spelling := by
  obtain ⟨valid, target, path, named, rfl⟩ := denotes
  rw [removeLabelTargetNameIfRedundant_eq valid (colon_not_mem_head valid colon)
    path.isComponent path.ne_some_nil, Meaning.spelling, ← dropImplied_eq named]
  rfl

theorem Denotes.spelling (denotes : Denotes text d) : Denotes d.spelling d := by
  obtain ⟨valid, target, path, named, rfl⟩ := denotes
  by_cases redundant : d.implied = some d.target
  · exact ⟨valid, none, ⟨path.names, nofun⟩, redundant, by
      rw [Meaning.spelling, if_pos redundant]⟩
  refine ⟨valid, some d.target, ⟨path.names, ?_⟩, rfl, by
    rw [Meaning.spelling, if_neg redundant]⟩
  rintro name ⟨⟩
  cases target with
  | none => exact absurd named redundant
  | some name =>
    cases named
    exact path.target _ rfl

/-! ## Uniqueness of what is denoted -/

theorem Repo.slash_not_mem_head (valid : repo.Valid)
    (resolved : ∀ message, repo ≠ .unresolved message) : '/' ∉ repo.head := by
  cases repo with
  | apparent name => simpa [head] using (isRepoName valid rfl).no_slash
  | canonical name => simpa [head] using (isRepoName valid rfl).no_slash
  | main => decide
  | unresolved message => exact absurd rfl (resolved message)

theorem Repo.head_injective (valid : repo.Valid) (valid' : repo'.Valid)
    (resolved : ∀ message, repo ≠ .unresolved message)
    (resolved' : ∀ message, repo' ≠ .unresolved message) (same : repo.head = repo'.head) :
    repo = repo' := by
  have no_at : ∀ {name rest : Text}, (apparent name).Valid → '@' :: name ≠ '@' :: '@' :: rest := by
    rintro name rest valid same
    refine (isRepoName valid rfl).no_at ?_
    rw [(List.cons.inj same).2]
    exact mem_cons_self
  have nonempty : ∀ {name : Text}, (canonical name).Valid → '@' :: '@' :: name ≠ ['@', '@'] := by
    rintro name valid same
    exact (isRepoName valid rfl).nonempty (List.cons.inj (List.cons.inj same).2).2
  cases repo with
  | apparent name =>
    cases repo' with
    | apparent name' =>
      cases same
      rfl
    | canonical name' => exact absurd same (no_at valid)
    | main => exact absurd same (no_at valid)
    | unresolved message => exact absurd rfl (resolved' message)
  | canonical name =>
    cases repo' with
    | apparent name' => exact absurd same.symm (no_at valid')
    | canonical name' =>
      cases same
      rfl
    | main => exact absurd same (nonempty valid)
    | unresolved message => exact absurd rfl (resolved' message)
  | main =>
    cases repo' with
    | apparent name' => exact absurd same.symm (no_at valid')
    | canonical name' => exact absurd same.symm (nonempty valid')
    | main => rfl
    | unresolved message => exact absurd rfl (resolved' message)
  | unresolved message => exact absurd rfl (resolved message)

theorem bracket_prefix_label_iff (valid : repo.Valid) :
    ['@', '@', '['] <+: repo.head ++ renderPath names target ↔
      ∃ message, repo = .unresolved message := by
  rw [← bracket_prefix_head_iff valid]
  refine ⟨fun starts => ?_, fun starts => starts.trans (prefix_append _ _)⟩
  rcases renderPath_eq_nil_or names target with ⟨_, path⟩ | ⟨_, rest, path⟩
  · rwa [path, append_nil] at starts
  · rw [path] at starts
    exact prefix_of_prefix_append (by decide) starts

theorem label_injective (valid : repo.Valid) (valid' : repo'.Valid)
    (components : ∀ name ∈ names, IsComponent name)
    (components' : ∀ name ∈ names', IsComponent name)
    (same : repo.head ++ renderPath names target = repo'.head ++ renderPath names' target') :
    repo = repo' ∧ names = names' ∧ target = target' := by
  have brackets := (@bracket_prefix_label_iff repo names target valid).symm.trans
    (same ▸ @bracket_prefix_label_iff repo' names' target' valid')
  by_cases unresolved : ∃ message, repo = .unresolved message
  · obtain ⟨message', rfl⟩ := brackets.mp unresolved
    obtain ⟨message, rfl⟩ := unresolved
    simp only [Repo.head, cons_append, append_assoc, nil_append, List.cons.injEq, true_and] at same
    have parts := (cut_append valid.2 _).symm.trans
      ((congrArg (cut ']') same).trans (cut_append valid'.2 _))
    obtain ⟨rfl, paths⟩ := Prod.ext_iff.mp (some.inj parts)
    exact ⟨rfl, renderPath_injective components components' paths⟩
  · have resolved : ∀ message, repo ≠ .unresolved message :=
      fun message same => unresolved ⟨message, same⟩
    have resolved' : ∀ message, repo' ≠ .unresolved message :=
      fun message same => unresolved (brackets.mpr ⟨message, same⟩)
    obtain ⟨heads, paths⟩ := append_renderPath_injective
      (Repo.slash_not_mem_head valid resolved) (Repo.slash_not_mem_head valid' resolved') same
    exact ⟨Repo.head_injective valid valid' resolved resolved' heads,
      renderPath_injective components components' paths⟩

/-- A text denotes a single target. -/
theorem Denotes.unique (denotes : Denotes text d) (denotes' : Denotes text d') : d = d' := by
  obtain ⟨valid, target, path, named, rfl⟩ := denotes
  obtain ⟨valid', target', path', named', same⟩ := denotes'
  obtain ⟨repos, packages, rfl⟩ :=
    label_injective valid valid' path.isComponent path'.isComponent same
  obtain ⟨repo, package, _⟩ := d
  obtain ⟨repo', package', _⟩ := d'
  subst repos packages
  cases named.symm.trans named'
  rfl

/-! ## The package and target of a label -/

section

variable {l : CanonicalLabel} {name : Text}

theorem trimSuffix_package {head : Text} (components : ∀ name ∈ names, IsComponent name) :
    trimSuffix (head ++ '/' :: '/' :: join names) ['/', '/'] = head ++ renderPath names none := by
  have parts := @cutSuffix_package head names components
  rw [cutSuffix] at parts
  rw [trimSuffix]
  by_cases empty : names = []
  · rw [if_pos empty] at parts
    split_ifs at parts ⊢ with ends
    rw [some.inj parts, renderPath, if_pos ⟨empty, rfl⟩, append_nil]
  · rw [if_neg empty] at parts
    have present : ¬(names = [] ∧ (none : Option Text) = none) := fun both => empty both.1
    split_ifs at parts ⊢
    rw [renderPath_of_not present, renderTarget, append_nil]

variable (valid : (Repo.canonical name).Valid) (components : ∀ name ∈ names, IsComponent name)
  (value_eq : l.value = (Repo.canonical name).head ++ renderPath names target)

include valid components value_eq

theorem packageValue_eq : l.packageValue = (canonical name).head ++ renderPath names none := by
  have colon := colon_not_mem_head valid nofun
  rw [packageValue, value_eq, cut_label colon components]
  cases target with
  | none => rfl
  | some target => exact trimSuffix_package components

theorem getTargetName_eq : some l.getTargetName = target.or ((canonical name).implied names) := by
  have colon := colon_not_mem_head valid nofun
  have slash := slash_not_mem_head valid nofun
  rw [getTargetName, value_eq, cut_label colon components]
  cases target with
  | some target => rfl
  | none =>
    by_cases empty : names = []
    · subst empty
      have path : renderPath [] none = [] := rfl
      have absent : cutLast '/' (canonical name).head = none := by
        rw [cutLast, cut_of_not_mem (by rwa [mem_reverse])]
        rfl
      rw [path, append_nil]
      simp only [absent]
      exact congrArg some (trimLeftAt_of_not_mem (isRepoName valid rfl).no_at)
    · have present : ¬(names = [] ∧ (none : Option Text) = none) := fun both => empty both.1
      have ends := getLast?_eq_some_getLast empty
      rw [renderPath_of_not present, renderTarget, append_nil]
      simp only [cutLast_package components ends]
      exact (implied_of_getLast? ends).symm

end

theorem append_target_eq (valid : (canonical name).Valid) (target : Text) :
    (canonical name).head ++ renderPath names none ++
        (if '/' ∈ (canonical name).head ++ renderPath names none then [':']
          else ['/', '/', ':']) ++ target =
      (canonical name).head ++ renderPath names (some target) := by
  have slash := slash_not_mem_head valid nofun
  rw [renderPath_of_not (show ¬(names = [] ∧ some target = none) from nofun)]
  by_cases empty : names = []
  · subst empty
    have path : renderPath [] none = [] := rfl
    rw [path, append_nil, if_neg slash]
    simp [join, renderTarget]
  · have present : ¬(names = [] ∧ (none : Option Text) = none) := fun both => empty both.1
    rw [renderPath_of_not present]
    simp [renderTarget]

theorem Repo.implied_ne_some_nil (valid : repo.Valid)
    (components : ∀ name ∈ names, IsComponent name) : repo.implied names ≠ some [] := by
  intro absent
  rw [implied, or_eq_some_iff] at absent
  rcases absent with last | ⟨_, root⟩
  · exact (components [] (mem_of_getLast? last)).nonempty rfl
  · exact (isRepoName valid root).nonempty rfl

theorem Denotes.target_ne_nil (denotes : Denotes text d) : d.target ≠ [] := by
  obtain ⟨valid, target, path, named, rfl⟩ := denotes
  intro absent
  rw [absent, or_eq_some_iff] at named
  rcases named with given | ⟨_, implied⟩
  · exact path.ne_some_nil given
  · exact implied_ne_some_nil valid path.isComponent implied

theorem CanonicalLabel.ext_value {m : CanonicalLabel} (same : l.value = m.value) : l = m := by
  cases l
  cases m
  cases same
  rfl

theorem ResolvedLabel.ext_value {l m : ResolvedLabel} (same : l.value = m.value) : l = m := by
  cases l
  cases m
  cases same
  rfl

variable (denotes : Denotes text d)

include denotes

theorem getTargetName_of_spelling (canonical : d.repo = .canonical name)
    (value_eq : l.value = d.spelling) : l.getTargetName = d.target := by
  have valid := denotes.1
  rw [canonical] at valid
  rw [Meaning.spelling, canonical] at value_eq
  have given := getTargetName_eq valid denotes.2.choose_spec.1.isComponent value_eq
  rw [← canonical] at given
  split_ifs at given with redundant
  · exact some.inj (given.trans redundant)
  · exact some.inj given

theorem appendTargetName_getTargetName (canonical : d.repo = .canonical name)
    (value_eq : l.value = d.spelling) :
    l.getCanonicalPackage.appendTargetName l.getTargetName = l := by
  have components := denotes.2.choose_spec.1.isComponent
  have nonempty := denotes.target_ne_nil
  have named := getTargetName_of_spelling denotes canonical value_eq
  have valid := denotes.1
  obtain ⟨repo, names, target⟩ := d
  subst canonical
  have package := packageValue_eq valid components value_eq
  apply ext_value
  change removeLabelTargetNameIfRedundant (l.packageValue ++
    (if '/' ∈ l.packageValue then [':'] else ['/', '/', ':']) ++ l.getTargetName) = l.value
  rw [package, append_target_eq valid, removeLabelTargetNameIfRedundant_eq valid
    (colon_not_mem_head valid nofun) components (by rw [named]; simpa using nonempty), named,
    value_eq, Meaning.spelling, dropImplied]
  simp [Meaning.implied, eq_comm]

/-! ## Equality of labels -/

/-- Two labels denote the same target. -/
def DenoteSame (s t : Text) : Prop := ∃ d, Denotes s d ∧ Denotes t d

/-- The label does not contain an error message in which a colon occurs. -/
def NoColonInMessage (s : Text) : Prop :=
  ∀ d message, Denotes s d → d.repo = .unresolved message → ':' ∉ message

theorem Denotes.noColonInMessage_iff :
    NoColonInMessage text ↔ ∀ message, d.repo = .unresolved message → ':' ∉ message := by
  constructor
  · exact fun none message => none d message denotes
  · intro none d' message denotes'
    rw [← denotes.unique denotes']
    exact none message

theorem Denotes.denoteSame_iff {other : Text} (denotes' : Denotes other d') :
    DenoteSame text other ↔ d = d' := by
  constructor
  · rintro ⟨common, first, second⟩
    exact (denotes.unique first).trans (second.unique denotes')
  · rintro rfl
    exact ⟨d, denotes, denotes'⟩

theorem Denotes.removeLabelTargetNameIfRedundant_of_colon (colon : ¬NoColonInMessage text) :
    Label.removeLabelTargetNameIfRedundant text = text := by
  rw [denotes.noColonInMessage_iff] at colon
  push Not at colon
  obtain ⟨message, unresolved, colon⟩ := colon
  obtain ⟨valid, target, _, _, rfl⟩ := denotes
  rw [unresolved] at valid ⊢
  exact removeLabelTargetNameIfRedundant_of_colon_mem valid.2 colon

theorem Denotes.removed : Denotes (Label.removeLabelTargetNameIfRedundant text) d := by
  by_cases colon : NoColonInMessage text
  · rw [denotes.removeLabelTargetNameIfRedundant (denotes.noColonInMessage_iff.mp colon)]
    exact denotes.spelling
  · rwa [denotes.removeLabelTargetNameIfRedundant_of_colon colon]

theorem Denotes.removeLabelTargetNameIfRedundant_idem :
    Label.removeLabelTargetNameIfRedundant (Label.removeLabelTargetNameIfRedundant text) =
      Label.removeLabelTargetNameIfRedundant text := by
  by_cases colon : NoColonInMessage text
  · have none := denotes.noColonInMessage_iff.mp colon
    rw [denotes.removed.removeLabelTargetNameIfRedundant none,
      denotes.removeLabelTargetNameIfRedundant none]
  · rw [denotes.removeLabelTargetNameIfRedundant_of_colon colon,
      denotes.removeLabelTargetNameIfRedundant_of_colon colon]

omit denotes

/-- Texts that denote the same yield the same label, unless they differ and contain an error message
with a colon. -/
theorem removeLabelTargetNameIfRedundant_eq_iff {t : Text} (denotes : Denotes s d)
    (denotes' : Denotes t d') :
    (removeLabelTargetNameIfRedundant s = removeLabelTargetNameIfRedundant t ↔ DenoteSame s t) ↔
      (DenoteSame s t → s = t ∨ NoColonInMessage s) := by
  have forward : removeLabelTargetNameIfRedundant s = removeLabelTargetNameIfRedundant t →
      DenoteSame s t := by
    intro equal
    rw [denotes.denoteSame_iff denotes']
    exact denotes.removed.unique (equal ▸ denotes'.removed)
  constructor
  · intro correct same
    by_cases colon : NoColonInMessage s
    · exact .inr colon
    have equal := correct.mpr same
    have other : ¬NoColonInMessage t := by
      obtain rfl := (denotes.denoteSame_iff denotes').mp same
      rwa [denotes'.noColonInMessage_iff, ← denotes.noColonInMessage_iff]
    rw [denotes.removeLabelTargetNameIfRedundant_of_colon colon,
      denotes'.removeLabelTargetNameIfRedundant_of_colon other] at equal
    exact .inl equal
  · intro condition
    refine ⟨forward, fun same => ?_⟩
    rcases condition same with rfl | colon
    · rfl
    · obtain rfl := (denotes.denoteSame_iff denotes').mp same
      have none := denotes.noColonInMessage_iff.mp colon
      rw [denotes.removeLabelTargetNameIfRedundant none,
        denotes'.removeLabelTargetNameIfRedundant none]

theorem exists_denotes_of_newCanonicalLabel (accepted : newCanonicalLabel s = .ok l) :
    l.value = removeLabelTargetNameIfRedundant s ∧
      ∃ d name, d.repo = .canonical name ∧ Denotes s d := by
  obtain ⟨matched, rfl⟩ := validate_eq_ok_iff.mp accepted
  exact ⟨rfl, matches_validCanonicalLabelPattern_iff_denotes.mp matched⟩

theorem exists_denotes_of_newResolvedLabel {l : ResolvedLabel}
    (accepted : newResolvedLabel s = .ok l) :
    l.value = removeLabelTargetNameIfRedundant s ∧ ∃ d, Denotes s d ∧
      ((∃ name, d.repo = .canonical name) ∨ ∃ message, d.repo = .unresolved message) := by
  obtain ⟨matched, rfl⟩ := validate_eq_ok_iff.mp accepted
  exact ⟨rfl, matches_validResolvedLabelPattern_iff_denotes.mp matched⟩

/-- Labels that are accepted denote a single target. Canonical labels are equal if and only if they
denote the same target. So are resolved labels, except for ones that are spelled differently and
contain an error message in which a colon occurs. Labels are not affected by being parsed again,
and canonical labels can be obtained from their package and target. -/
theorem labels_equal_iff_denote_same (s t : Text) :
    (∀ l, newCanonicalLabel s = .ok l → ∃! d, Denotes s d) ∧
    (∀ l, newResolvedLabel s = .ok l → ∃! d, Denotes s d) ∧
    (∀ l m, newCanonicalLabel s = .ok l → newCanonicalLabel t = .ok m → (l = m ↔ DenoteSame s t)) ∧
    (∀ l m, newResolvedLabel s = .ok l → newResolvedLabel t = .ok m →
      ((l = m ↔ DenoteSame s t) ↔ (DenoteSame s t → s = t ∨ NoColonInMessage s))) ∧
    (∀ l, newCanonicalLabel s = .ok l → newCanonicalLabel l.value = .ok l) ∧
    (∀ l, newResolvedLabel s = .ok l → newResolvedLabel l.value = .ok l) ∧
    (∀ l, newCanonicalLabel s = .ok l →
      l.getCanonicalPackage.appendTargetName l.getTargetName = l) := by
  refine ⟨?_, ?_, ?_, ?_, ?_, ?_, ?_⟩
  · intro l accepted
    obtain ⟨_, d, _, _, denotes⟩ := exists_denotes_of_newCanonicalLabel accepted
    exact ⟨d, denotes, fun _ other => other.unique denotes⟩
  · intro l accepted
    obtain ⟨_, d, denotes, _⟩ := exists_denotes_of_newResolvedLabel accepted
    exact ⟨d, denotes, fun _ other => other.unique denotes⟩
  · intro l m accepted accepted'
    obtain ⟨value_eq, d, name, canonical, denotes⟩ := exists_denotes_of_newCanonicalLabel accepted
    obtain ⟨value_eq', d', _, _, denotes'⟩ := exists_denotes_of_newCanonicalLabel accepted'
    have equal : l = m ↔ removeLabelTargetNameIfRedundant s = removeLabelTargetNameIfRedundant t := by
      rw [← value_eq, ← value_eq']
      exact ⟨congrArg _, CanonicalLabel.ext_value⟩
    rw [equal]
    refine (removeLabelTargetNameIfRedundant_eq_iff denotes denotes').mpr fun _ => .inr ?_
    rw [denotes.noColonInMessage_iff, canonical]
    nofun
  · intro l m accepted accepted'
    obtain ⟨value_eq, d, denotes, _⟩ := exists_denotes_of_newResolvedLabel accepted
    obtain ⟨value_eq', d', denotes', _⟩ := exists_denotes_of_newResolvedLabel accepted'
    have equal : l = m ↔ removeLabelTargetNameIfRedundant s = removeLabelTargetNameIfRedundant t := by
      rw [← value_eq, ← value_eq']
      exact ⟨congrArg _, ResolvedLabel.ext_value⟩
    rw [equal]
    exact removeLabelTargetNameIfRedundant_eq_iff denotes denotes'
  · intro l accepted
    obtain ⟨value_eq, d, name, canonical, denotes⟩ := exists_denotes_of_newCanonicalLabel accepted
    rw [newCanonicalLabel, validate_eq_ok_iff]
    refine ⟨?_, CanonicalLabel.ext_value ?_⟩
    · rw [value_eq]
      exact matches_validCanonicalLabelPattern_iff_denotes.mpr ⟨d, name, canonical, denotes.removed⟩
    · change removeLabelTargetNameIfRedundant l.value = l.value
      rw [value_eq, denotes.removeLabelTargetNameIfRedundant_idem]
  · intro l accepted
    obtain ⟨value_eq, d, denotes, kind⟩ := exists_denotes_of_newResolvedLabel accepted
    rw [newResolvedLabel, validate_eq_ok_iff]
    refine ⟨?_, ResolvedLabel.ext_value ?_⟩
    · rw [value_eq]
      exact matches_validResolvedLabelPattern_iff_denotes.mpr ⟨d, denotes.removed, kind⟩
    · change removeLabelTargetNameIfRedundant l.value = l.value
      rw [value_eq, denotes.removeLabelTargetNameIfRedundant_idem]
  · intro l accepted
    obtain ⟨value_eq, d, name, canonical, denotes⟩ := exists_denotes_of_newCanonicalLabel accepted
    refine appendTargetName_getTargetName denotes canonical ?_
    rw [value_eq, denotes.removeLabelTargetNameIfRedundant]
    rw [canonical]
    nofun

/-- The name of a target is not removed if there is a colon in the error message. -/
theorem newResolvedLabel_keeps_redundant_name :
    (newResolvedLabel "@@[a:b]//c:c".toList).map (·.value) = .ok "@@[a:b]//c:c".toList ∧
    (newResolvedLabel "@@[a:b]//c".toList).map (·.value) = .ok "@@[a:b]//c".toList ∧
    DenoteSame "@@[a:b]//c:c".toList "@@[a:b]//c".toList := by
  refine ⟨by decide +kernel, by decide +kernel, ?_⟩
  have component : IsPackageComponent ['c'] :=
    ⟨forall_mem_singleton.mpr (by decide), 'c', by decide, by decide⟩
  refine ⟨⟨.unresolved ['a', ':', 'b'], [['c']], ['c']⟩, ⟨⟨by decide, by decide⟩, some ['c'], ?_, rfl,
    by decide⟩, ⟨by decide, by decide⟩, none, ?_, rfl, by decide⟩
  · refine ⟨forall_mem_singleton.mpr component, ?_⟩
    rintro name ⟨⟩
    exact ⟨[['c']], by decide, forall_mem_singleton.mpr (.inl component), rfl⟩
  · exact ⟨forall_mem_singleton.mpr component, nofun⟩

end Bonanza.Label
