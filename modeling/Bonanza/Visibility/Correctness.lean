import Bonanza.Lib.Fallible
import Bonanza.Visibility.PackageGroup

/-! # Package groups contain what their visibility labels say

A node of the tree covers paths (`Node.covers`). Adding a label to the tree makes it cover what the
label denotes in addition to what it covers already (`Node.updatePackage_spec`), and searching the
encoded tree is the same as asking whether the tree covers the path of the package
(`containsDirectly_toProto`). From these the theorem `packageGroupContains_iff_visible` is obtained.
-/

namespace Bonanza.Visibility

open List Label Fallible AssocList BinarySearch CanonicalPackage Node Except

namespace Node

/-- Whether a path below a node is included. -/
def covers : Node → List Text → Bool
  | n, [] => n.includePackage
  | n, name :: names =>
    match AssocList.lookup n.subpackages name with
    | some child => child.covers names
    | none => n.includeSubpackages

/-- Nodes that include all subpackages have no children, and names are unique. -/
inductive WellFormed : Node → Prop where
  | mk {n : Node}
      (closed : n.includeSubpackages = true → n.includePackage = true ∧ n.subpackages = [])
      (unique : (n.subpackages.map Prod.fst).Nodup)
      (children : ∀ entry ∈ n.subpackages, entry.2.WellFormed) : WellFormed n

theorem wellFormed_new : WellFormed new := .mk nofun nodup_nil nofun

theorem covers_new (names : List Text) : new.covers names = false := by
  cases names <;> rfl

variable {n child : Node} {name : Text} (wellFormed : n.WellFormed)

include wellFormed

theorem WellFormed.unique : (n.subpackages.map Prod.fst).Nodup := by
  obtain ⟨-, unique, -⟩ := wellFormed
  exact unique

theorem WellFormed.of_mem {entry : Text × Node} (member : entry ∈ n.subpackages) :
    entry.2.WellFormed := by
  obtain ⟨-, -, children⟩ := wellFormed
  exact children entry member

theorem wellFormed_set (below : child.WellFormed) (limited : n.includeSubpackages = false) :
    (n.set name child).WellFormed := by
  refine .mk ?_ (nodup_insert wellFormed.unique) ?_
  · intro all
    exact absurd (limited.symm.trans all) Bool.false_ne_true
  · intro entry member
    rcases mem_insert.mp member with rfl | ⟨member, -⟩
    · exact below
    · exact wellFormed.of_mem member

theorem covers_of_includeSubpackages (all : n.includeSubpackages = true) (names : List Text) :
    n.covers names = true := by
  obtain ⟨closed, -, -⟩ := wellFormed
  obtain ⟨included, childless⟩ := closed all
  cases names with
  | nil => exact included
  | cons name names =>
    have absent : lookup n.subpackages name = none := by rw [childless]; rfl
    simp [covers, absent, all]

omit wellFormed

theorem covers_set_cons {names : List Text} {other : Text} :
    (n.set name child).covers (other :: names) =
      if other = name then child.covers names else n.covers (other :: names) := by
  by_cases same : other = name
  · subst same
    simp [covers, set, subpackages]
  · simp only [covers, set, subpackages, lookup_insert_of_ne same, same, if_false]
    rfl

theorem covers_getD (limited : n.includeSubpackages = false) (names : List Text) :
    ((lookup n.subpackages name).getD new).covers names = n.covers (name :: names) := by
  cases found : lookup n.subpackages name with
  | none => simp only [covers, found, Option.getD_none, covers_new, limited]
  | some child => simp only [covers, found, Option.getD_some]

theorem wellFormed_getD (name : Text) (wellFormed : n.WellFormed) :
    ((lookup n.subpackages name).getD new).WellFormed := by
  cases found : lookup n.subpackages name with
  | none => exact wellFormed_new
  | some child => exact wellFormed.of_mem (mem_of_lookup found)

theorem getOrCreate_eq (limited : n.includeSubpackages = false) :
    n.getOrCreate name = .ok ((lookup n.subpackages name).getD new) := by
  rw [getOrCreate, limited]
  rfl

/-- An update makes a node cover more paths. -/
structure Adds (update : Node → Node) (added : List Text → Prop) : Prop where
  wellFormed : ∀ n : Node, n.WellFormed → n.includeSubpackages = false → (update n).WellFormed
  covers_iff : ∀ n : Node, n.WellFormed → n.includeSubpackages = false → ∀ names,
    (update n).covers names = true ↔ n.covers names = true ∨ added names

theorem adds_setIncludePackage : Adds setIncludePackage fun names => names = [] where
  wellFormed n wellFormed limited := by
    refine .mk ?_ wellFormed.unique fun entry => wellFormed.of_mem
    intro all
    exact absurd (limited.symm.trans all) Bool.false_ne_true
  covers_iff n wellFormed limited names := by
    cases names with
    | nil => simp [covers, setIncludePackage, includePackage]
    | cons name names =>
      have same : (setIncludePackage n).covers (name :: names) = n.covers (name :: names) := rfl
      simp [same]

theorem adds_setIncludeSubpackages : Adds setIncludeSubpackages fun _ => True where
  wellFormed n wellFormed limited := .mk (fun _ => ⟨rfl, rfl⟩) nodup_nil nofun
  covers_iff n wellFormed limited names := by
    cases names <;> simp [covers, setIncludeSubpackages, includePackage, includeSubpackages,
      subpackages, AssocList.lookup]

variable {update : Node → Node} {added : List Text → Prop} (adds : Adds update added)
include adds

theorem updateBelow_spec (names : List Text) (wellFormed : n.WellFormed) :
    ∃ after, n.updateBelow update names = .ok after ∧ after.WellFormed ∧
      ∀ path, after.covers path = true ↔
        n.covers path = true ∨ ∃ rest, path = names ++ rest ∧ added rest := by
  induction names generalizing n with
  | nil =>
    by_cases all : n.includeSubpackages = true
    · refine ⟨n, if_pos all, wellFormed, fun path => ?_⟩
      simp [covers_of_includeSubpackages wellFormed all path]
    · have limited := Bool.eq_false_of_not_eq_true all
      refine ⟨update n, if_neg all, adds.wellFormed n wellFormed limited, fun path => ?_⟩
      rw [adds.covers_iff n wellFormed limited]
      simp
  | cons name names ih =>
    by_cases all : n.includeSubpackages = true
    · refine ⟨n, if_pos all, wellFormed, fun path => ?_⟩
      simp [covers_of_includeSubpackages wellFormed all path]
    have limited := Bool.eq_false_of_not_eq_true all
    obtain ⟨child, updated, below, child_iff⟩ := ih (wellFormed_getD name wellFormed)
    refine ⟨n.set name child, ?_, wellFormed_set wellFormed below limited, fun path => ?_⟩
    · rw [updateBelow, if_neg all, getOrCreate_eq limited]
      change (updateBelow update names _ >>= _) = _
      rw [updated]
      rfl
    · cases path with
      | nil => simp [covers, set, includePackage]
      | cons other path =>
        rw [covers_set_cons]
        by_cases same : other = name
        · subst same
          rw [if_pos rfl, child_iff, covers_getD limited]
          simp
        · simp [same]

/-- Updating a package adds what the update covers below it. -/
theorem updatePackage_spec (canonicalPackage : CanonicalPackage) (wellFormed : n.WellFormed)
    (limited : n.includeSubpackages = false) :
    ∃ after, n.updatePackage canonicalPackage update = .ok after ∧ after.WellFormed ∧
      after.includeSubpackages = false ∧
      ∀ path, after.covers path = true ↔
        n.covers path = true ∨ ∃ rest, path = canonicalPackage.path ++ rest ∧ added rest := by
  obtain ⟨after, updated, below, covers_iff⟩ :=
    updateBelow_spec adds canonicalPackage.path wellFormed
  rw [path, updateBelow, if_neg (by simp [limited])] at updated
  refine ⟨after, updated, below, ?_, covers_iff⟩
  obtain ⟨child, -, updated⟩ := bind_eq_ok_iff.mp updated
  obtain ⟨child, -, updated⟩ := bind_eq_ok_iff.mp updated
  obtain rfl := ok.inj updated
  exact limited

omit adds

/-! ### Messages -/

theorem toPackages_eq (entries : List (Text × Node)) :
    toPackages entries = entries.map fun entry =>
      { component := entry.1, includePackage := entry.2.includePackage,
        subpackages := entry.2.toProto } := by
  induction entries with
  | nil => rfl
  | cons entry entries ih => rw [toPackages, ih, map_cons]

theorem components_toPackages (entries : List (Text × Node)) :
    (toPackages entries).map PackageOf.component = entries.map Prod.fst := by
  rw [toPackages_eq, map_map]
  rfl

variable (wellFormed : n.WellFormed)

include wellFormed

theorem lookup_toPackages (component : Text) :
    lookup PackageOf.component
        ((toPackages n.subpackages).insertionSort fun a b => a.component ≤ b.component) component =
      (lookup n.subpackages component).map fun child =>
        { component, includePackage := child.includePackage, subpackages := child.toProto } := by
  have sorted : ((toPackages n.subpackages).insertionSort fun a b =>
      a.component ≤ b.component).Pairwise fun a b => a.component < b.component :=
    sorted_insertionSort (components_toPackages n.subpackages ▸ wellFormed.unique)
  cases found : lookup n.subpackages component with
  | none =>
    rw [Option.map_none, lookup_eq_none_iff sorted]
    intro element member
    rw [mem_insertionSort, toPackages_eq] at member
    obtain ⟨entry, listed, rfl⟩ := mem_map.mp member
    exact lookup_eq_none_iff.mp found entry listed
  | some child =>
    rw [Option.map_some, lookup_eq_some_iff sorted, mem_insertionSort, toPackages_eq]
    exact ⟨mem_map_of_mem (mem_of_lookup found), rfl⟩

/-- One step of searching the messages of a tree. -/
theorem containsDirectly_toProto_eq (component : Text) (rest : List Text) :
    containsDirectly n.toProto component rest =
      match lookup n.subpackages component with
      | none => .ok n.includeSubpackages
      | some child =>
        match rest with
        | [] => .ok child.includePackage
        | next :: rest => containsDirectly child.toProto next rest := by
  have searched := lookup_toPackages wellFormed component
  obtain ⟨includePackage, includeSubpackages, entries⟩ := n
  cases entries with
  | nil => cases rest <;> rfl
  | cons entry entries =>
    simp only [toProto, isEmpty_cons, Bool.false_eq_true, if_false, subpackages] at searched ⊢
    rw [containsDirectly, searched]
    cases lookup (entry :: entries) component <;> rfl

/-- The search finds what the tree covers. -/
theorem containsDirectly_toProto (component : Text) (rest : List Text) :
    containsDirectly n.toProto component rest = .ok (n.covers (component :: rest)) := by
  induction rest generalizing n component with
      rw [containsDirectly_toProto_eq wellFormed, covers]
  | nil =>
    cases lookup n.subpackages component <;> rfl
  | cons next rest ih =>
    cases found : lookup n.subpackages component with
    | none => rfl
    | some child => exact ih (wellFormed.of_mem (mem_of_lookup found)) next

end Node

theorem containsDirectly_none (all : Bool) (component : Text) (rest : List Text) :
    containsDirectly (.mk all .none) component rest = .ok all := by
  cases rest <;> rfl

/-! ## Other package groups -/

variable {labels : List Text}

theorem mem_compact {label : Text} :
    label ∈ compact labels ↔ label ∈ labels := by
  fun_induction compact labels with
  | case1 => rfl
  | case2 => rfl
  | case3 a rest ih => simp [ih]
  | case4 a b rest different ih => simp [ih]

/-- If all other package groups are known, the package is in one of them or not. -/
theorem containsIncluded_eq {e : Text → Text → Option Bool} {fromPackage : Text}
    (ready : ∀ label ∈ labels, e label fromPackage ≠ none) :
    containsIncluded e fromPackage labels =
      .ok (decide (∃ label ∈ labels, e label fromPackage = some true)) := by
  induction labels with
  | nil => rfl
  | cons label labels ih =>
    rw [containsIncluded]
    cases known : e label fromPackage with
    | none => exact absurd known (ready label mem_cons_self)
    | some contained =>
      cases contained with
      | true => simp [known]
      | false =>
        rw [ih (forall_mem_cons.mp ready).2]
        simp [known]

/-! ## Labels -/

/-- The labels that point to a valid repo. -/
def canonicalLabels (visibility : List ResolvedLabel) : List CanonicalLabel :=
  visibility.filterMap fun label => label.asCanonical.toOption

/-- Labels that refer to another package group. -/
structure NamesGroup (label : CanonicalLabel) : Prop where
  not_private : ¬ isSpecial "private" label
  not_public : ¬ isSpecial "public" label
  not_package : label.getTargetName ≠ "__pkg__".toList
  not_subpackages : label.getTargetName ≠ "__subpackages__".toList

/-- What a list of labels says about a package, given which packages are contained in other
package groups. -/
def Visible (e : Text → Text → Option Bool) (visibility : List ResolvedLabel)
    (q : CanonicalPackage) : Prop :=
  (∃ resolved label, visibility = [resolved] ∧ resolved.asCanonical = .ok label ∧
      isSpecial "public" label) ∨
    ∃ label ∈ canonicalLabels visibility,
      (label.getTargetName = "__pkg__".toList ∧ q = label.getCanonicalPackage) ∨
      (label.getTargetName = "__subpackages__".toList ∧
        (q = label.getCanonicalPackage ∨ q.isBelow label.getCanonicalPackage)) ∨
      (NamesGroup label ∧ e label.value q.value = some true)

/-- The paths that a label adds to the tree. -/
def denotes (label : CanonicalLabel) (path : List Text) : Prop :=
  (label.getTargetName = "__pkg__".toList ∧ path = label.getCanonicalPackage.path) ∨
    (label.getTargetName = "__subpackages__".toList ∧ label.getCanonicalPackage.path <+: path)

variable {path : List Text} {label : CanonicalLabel}

theorem denotes_of_package (isPackage : label.getTargetName = "__pkg__".toList) :
    denotes label path ↔ path = label.getCanonicalPackage.path := by
  simp [denotes, isPackage]

theorem denotes_of_subpackages (isSubpackages : label.getTargetName = "__subpackages__".toList) :
    denotes label path ↔ label.getCanonicalPackage.path <+: path := by
  simp [denotes, isSubpackages]

/-- The result for labels that have no meaning of their own. -/
structure Compiled (tree : Node) (groups : List Text) (labels : List CanonicalLabel)
    (packageGroup : PackageGroup) : Prop where
  ordinary : ∀ label ∈ labels, ¬ isSpecial "private" label ∧ ¬ isSpecial "public" label
  contains_iff : ∀ component rest, ∃ contained,
    containsDirectly packageGroup.tree component rest = .ok contained ∧
      (contained = true ↔ tree.covers (component :: rest) = true ∨
        ∃ label ∈ labels, denotes label (component :: rest))
  includes_iff : ∀ name, name ∈ packageGroup.includePackageGroups ↔
    name ∈ groups ∨ ∃ label ∈ labels, NamesGroup label ∧ label.value = name

/-- How compiling labels ends. -/
inductive Outcome (count : Nat) (tree : Node) (groups : List Text) (labels : List CanonicalLabel) :
    Except CreationError PackageGroup → Prop where
  | special (all : Bool) (label : CanonicalLabel) (member : label ∈ labels)
      (isSpecial : isSpecial (if all then "public" else "private") label) (alone : count ≤ 1) :
      Outcome count tree groups labels (.ok ⟨.mk all .none, []⟩)
  | invalid (message : String) : Outcome count tree groups labels (.error (.invalid message))
  | compiled (packageGroup : PackageGroup) (compiled : Compiled tree groups labels packageGroup) :
      Outcome count tree groups labels (.ok packageGroup)

section

variable {count : Nat} {tree : Node} {groups : List Text} {labels : List CanonicalLabel}
  {result : Except CreationError PackageGroup} {label : CanonicalLabel}

theorem Outcome.cons {after : Node} {afterGroups : List Text}
    (outcome : Outcome count after afterGroups labels result)
    (ordinary : ¬ isSpecial "private" label ∧ ¬ isSpecial "public" label)
    (covers_iff : ∀ path, after.covers path = true ↔ tree.covers path = true ∨ denotes label path)
    (groups_iff : ∀ name, name ∈ afterGroups ↔
      name ∈ groups ∨ NamesGroup label ∧ label.value = name) :
    Outcome count tree groups (label :: labels) result := by
  cases outcome with
  | special all other member isSpecial alone =>
    exact .special all other (mem_cons_of_mem _ member) isSpecial alone
  | invalid message => exact .invalid message
  | compiled packageGroup compiled =>
    refine .compiled packageGroup ⟨?_, ?_, ?_⟩
    · exact forall_mem_cons.mpr ⟨ordinary, compiled.ordinary⟩
    · intro component rest
      obtain ⟨contained, searched, contained_iff⟩ := compiled.contains_iff component rest
      refine ⟨contained, searched, ?_⟩
      rw [contained_iff, covers_iff, exists_mem_cons_iff, or_assoc]
    · intro name
      rw [compiled.includes_iff, groups_iff, exists_mem_cons_iff, or_assoc]

end

theorem addLabels_spec (count : Nat) {tree : Node} (groups : List Text)
    (visibility : List ResolvedLabel) (wellFormed : tree.WellFormed)
    (limited : tree.includeSubpackages = false) :
    Outcome count tree groups (canonicalLabels visibility)
      (addLabels count tree groups visibility) := by
  induction visibility generalizing tree groups with
  | nil =>
    refine .compiled _ ⟨nofun, ?_, ?_⟩
    · intro component rest
      exact ⟨_, containsDirectly_toProto wellFormed component rest, by simp [canonicalLabels]⟩
    · intro name
      simp [canonicalLabels, mem_compact]
  | cons resolved visibility ih =>
    rw [addLabels]
    cases parsed : resolved.asCanonical with
    | error message =>
      have skipped : canonicalLabels (resolved :: visibility) = canonicalLabels visibility := by
        simp [canonicalLabels, parsed, Except.toOption]
      rw [skipped]
      exact ih groups wellFormed limited
    | ok label =>
      have added : canonicalLabels (resolved :: visibility) =
          label :: canonicalLabels visibility := by
        simp [canonicalLabels, parsed, Except.toOption]
      rw [added]
      dsimp only
      by_cases isPrivate : isSpecial "private" label
      · rw [if_pos isPrivate]
        split_ifs with several
        · exact .invalid _
        · exact .special false label mem_cons_self isPrivate (Nat.le_of_not_gt several)
      by_cases isPublic : isSpecial "public" label
      · rw [if_pos isPublic]
        split_ifs with several
        · exact .invalid _
        · exact .special true label mem_cons_self isPublic (Nat.le_of_not_gt several)
      rw [if_neg isPrivate, if_neg isPublic]
      by_cases isPackage : label.getTargetName = "__pkg__".toList
      · obtain ⟨after, updated, afterWellFormed, afterLimited, covers_iff⟩ :=
          updatePackage_spec adds_setIncludePackage label.getCanonicalPackage
            wellFormed limited
        rw [if_pos isPackage, updated]
        refine (ih groups afterWellFormed afterLimited).cons ⟨isPrivate, isPublic⟩ ?_ ?_
        · intro path
          rw [covers_iff, denotes_of_package isPackage]
          simp
        · intro name
          have no_group : ¬ NamesGroup label := fun named => named.not_package isPackage
          simp [no_group]
      by_cases isSubpackages : label.getTargetName = "__subpackages__".toList
      · obtain ⟨after, updated, afterWellFormed, afterLimited, covers_iff⟩ :=
          updatePackage_spec adds_setIncludeSubpackages label.getCanonicalPackage
            wellFormed limited
        rw [if_neg isPackage, if_pos isSubpackages, updated]
        refine (ih groups afterWellFormed afterLimited).cons ⟨isPrivate, isPublic⟩ ?_ ?_
        · intro path
          rw [covers_iff, denotes_of_subpackages isSubpackages]
          simp only [List.IsPrefix, and_true, eq_comm]
        · intro name
          have no_group : ¬ NamesGroup label := fun named => named.not_subpackages isSubpackages
          simp [no_group]
      rw [if_neg isPackage, if_neg isSubpackages]
      refine (ih _ wellFormed limited).cons ⟨isPrivate, isPublic⟩ ?_ ?_
      · intro path
        simp only [denotes, isPackage, isSubpackages, false_and, or_false]
      · intro name
        have named : NamesGroup label := ⟨isPrivate, isPublic, isPackage, isSubpackages⟩
        simp [named, eq_comm]

theorem mem_canonicalLabels {visibility : List ResolvedLabel} :
    label ∈ canonicalLabels visibility ↔
      ∃ resolved ∈ visibility, resolved.asCanonical = .ok label := by
  have parsed_iff : ∀ resolved : ResolvedLabel,
      resolved.asCanonical.toOption = some label ↔ resolved.asCanonical = .ok label := by
    intro resolved
    cases resolved.asCanonical <;> simp [Except.toOption]
  simp [canonicalLabels, parsed_iff]

section

variable {e : Text → Text → Option Bool} {visibility : List ResolvedLabel}
  {packageGroup : PackageGroup} {q : CanonicalPackage} {resolved : ResolvedLabel}
  (created : newPackageGroupFromVisibility visibility = .ok packageGroup)

include created

theorem created_cases :
    (∃ resolved label all, visibility = [resolved] ∧ resolved.asCanonical = .ok label ∧
      isSpecial (if all then "public" else "private") label ∧
      packageGroup = ⟨.mk all .none, []⟩) ∨
    Compiled .new [] (canonicalLabels visibility) packageGroup := by
  have outcome := addLabels_spec visibility.length [] visibility wellFormed_new rfl
  rw [newPackageGroupFromVisibility] at created
  rw [created] at outcome
  cases outcome with
  | special all label member special alone =>
    obtain ⟨resolved, listed, parsed⟩ := mem_canonicalLabels.mp member
    obtain ⟨only, rfl⟩ : ∃ only, visibility = [only] :=
      length_eq_one_iff.mp (Nat.le_antisymm alone (length_pos_of_mem listed))
    obtain rfl := mem_singleton.mp listed
    exact .inl ⟨resolved, label, all, rfl, parsed, special, rfl⟩
  | compiled _ compiled => exact .inr compiled

omit created in
theorem newPackageGroupFromVisibility_ne_panic (visibility : List ResolvedLabel)
    (message : String) : newPackageGroupFromVisibility visibility ≠ .error (.panic message) := by
  intro panicked
  have outcome := addLabels_spec visibility.length [] visibility wellFormed_new rfl
  rw [newPackageGroupFromVisibility] at panicked
  rw [panicked] at outcome
  cases outcome

omit created in
theorem canonicalLabels_singleton (parsed : resolved.asCanonical = .ok label) :
    canonicalLabels [resolved] = [label] := by
  simp [canonicalLabels, parsed, Except.toOption]

omit created in
theorem not_visible_of_private (parsed : resolved.asCanonical = .ok label)
    (isPrivate : isSpecial "private" label) :
    ¬ Visible e [resolved] q := by
  have name_eq := isPrivate.2
  rintro (⟨other, found, same, otherParsed, isPublic⟩ | ⟨found, member, denoted⟩)
  · rw [← (List.cons.inj same).1, parsed] at otherParsed
    obtain rfl := ok.inj otherParsed
    exact absurd (name_eq.symm.trans isPublic.2) (by decide)
  · rw [canonicalLabels_singleton parsed, mem_singleton] at member
    subst member
    rcases denoted with ⟨isPackage, -⟩ | ⟨isSubpackages, -⟩ | ⟨named, -⟩
    · exact absurd (name_eq.symm.trans isPackage) (by decide)
    · exact absurd (name_eq.symm.trans isSubpackages) (by decide)
    · exact named.not_private isPrivate

omit created in
/-- Without special labels, a package is visible if a label denotes it, or names a package group that
it is in. -/
theorem visible_iff_of_ordinary
    (ordinary : ∀ label ∈ canonicalLabels visibility,
      ¬ isSpecial "private" label ∧ ¬ isSpecial "public" label) :
    Visible e visibility q ↔
      (∃ label ∈ canonicalLabels visibility, denotes label q.path) ∨
        ∃ label ∈ canonicalLabels visibility,
          NamesGroup label ∧ e label.value q.value = some true := by
  have not_public : ¬ ∃ resolved label, visibility = [resolved] ∧
      resolved.asCanonical = .ok label ∧ isSpecial "public" label := by
    rintro ⟨resolved, label, rfl, parsed, isPublic⟩
    rw [canonicalLabels_singleton parsed] at ordinary
    exact (ordinary label mem_cons_self).2 isPublic
  rw [Visible, or_iff_right not_public, ← exists_or]
  refine exists_congr fun label => ?_
  rw [← and_or_left, denotes, path_injective.eq_iff, path_prefix_iff, or_assoc]

theorem contains_iff_of_created
    (ready : ∀ name ∈ packageGroup.includePackageGroups, e name q.value ≠ none) :
    ∃ contained, packageGroupContains e packageGroup q = .ok contained ∧
      (contained = true ↔ Visible e visibility q) := by
  rcases created_cases created with
    ⟨resolved, label, all, rfl, parsed, special, rfl⟩ | compiled
  · refine ⟨all, ?_, ?_⟩
    · rw [packageGroupContains, containsDirectly_none]
      cases all <;> rfl
    · cases all with
      | true => exact iff_of_true rfl (.inl ⟨resolved, label, rfl, parsed, special⟩)
      | false => exact iff_of_false Bool.false_ne_true (not_visible_of_private parsed special)
  · obtain ⟨contained, searched, contained_iff⟩ :=
      compiled.contains_iff q.getCanonicalRepo (components q.getPackagePath)
    change contained = true ↔ _ ∨ ∃ label ∈ _, denotes label q.path at contained_iff
    have uncovered : ¬ new.covers (q.getCanonicalRepo :: components q.getPackagePath) = true :=
      by simp [covers_new]
    rw [or_iff_right uncovered] at contained_iff
    rw [visible_iff_of_ordinary compiled.ordinary, ← contained_iff, packageGroupContains, searched]
    cases contained with
    | true => exact ⟨true, rfl, by simp⟩
    | false =>
      refine ⟨_, containsIncluded_eq ready, ?_⟩
      simp only [decide_eq_true_iff, compiled.includes_iff, not_mem_nil, false_or,
        Bool.false_eq_true]
      constructor
      · rintro ⟨_, ⟨label, member, named, rfl⟩, contained⟩
        exact ⟨label, member, named, contained⟩
      · rintro ⟨label, member, named, contained⟩
        exact ⟨label.value, ⟨label, member, named, rfl⟩, contained⟩

theorem mem_includePackageGroups_iff (name : Text) :
    name ∈ packageGroup.includePackageGroups ↔
      ∃ label ∈ canonicalLabels visibility, NamesGroup label ∧ label.value = name := by
  rcases created_cases created with
    ⟨resolved, label, all, rfl, parsed, special, rfl⟩ | compiled
  · have unnamed : ¬ NamesGroup label := by
      intro named
      cases all with
      | true => exact named.not_public special
      | false => exact named.not_private special
    simp [canonicalLabels_singleton parsed, unnamed]
  · simp [compiled.includes_iff]

omit created

theorem Visible.of_subset {other : List ResolvedLabel} {otherGroup : PackageGroup}
    (visible : Visible e visibility q)
    (created : newPackageGroupFromVisibility other = .ok otherGroup)
    (same : ∀ label, label ∈ other ↔ label ∈ visibility) : Visible e other q := by
  have same_labels : ∀ label, label ∈ canonicalLabels other ↔ label ∈ canonicalLabels visibility := by
    intro label
    simp [mem_canonicalLabels, same]
  rcases visible with ⟨resolved, label, rfl, parsed, isPublic⟩ | ⟨label, member, denoted⟩
  · rcases created_cases created with
      ⟨otherResolved, otherLabel, all, rfl, -, -, -⟩ | compiled
    · have listed := mem_singleton.mp ((same otherResolved).mp mem_cons_self)
      exact .inl ⟨resolved, label, by rw [listed], parsed, isPublic⟩
    · have member := (same_labels label).mpr (by simp [canonicalLabels_singleton parsed])
      exact absurd isPublic (compiled.ordinary label member).2
  · exact .inr ⟨label, (same_labels label).mpr member, denoted⟩

/-- **Visibility is exact.** A package group contains a package exactly if the labels from which it
was constructed say so. The order and the repetition of labels do not matter, and the construction
does not panic. -/
theorem packageGroupContains_iff_visible
    (created : newPackageGroupFromVisibility visibility = .ok packageGroup)
    (ready : ∀ name ∈ packageGroup.includePackageGroups, e name q.value ≠ none) :
    (∃ contained, packageGroupContains e packageGroup q = .ok contained ∧
      (contained = true ↔ Visible e visibility q)) ∧
    (∀ other otherGroup, (∀ label, label ∈ other ↔ label ∈ visibility) →
      newPackageGroupFromVisibility other = .ok otherGroup →
      packageGroupContains e otherGroup q = packageGroupContains e packageGroup q) ∧
    ∀ any message, newPackageGroupFromVisibility any ≠ .error (.panic message) := by
  obtain ⟨contained, searched, contained_iff⟩ := contains_iff_of_created created ready
  refine ⟨⟨contained, searched, contained_iff⟩, ?_, newPackageGroupFromVisibility_ne_panic⟩
  intro other otherGroup same otherCreated
  have otherReady : ∀ name ∈ otherGroup.includePackageGroups, e name q.value ≠ none := by
    intro name member
    apply ready
    simp only [mem_includePackageGroups_iff created, mem_includePackageGroups_iff otherCreated,
      mem_canonicalLabels, same] at member ⊢
    exact member
  obtain ⟨otherContained, otherSearched, other_iff⟩ := contains_iff_of_created otherCreated otherReady
  rw [otherSearched, searched]
  congr 1
  rw [Bool.eq_iff_iff, other_iff, contained_iff]
  exact ⟨fun visible => visible.of_subset created fun label => (same label).symm,
    fun visible => visible.of_subset otherCreated same⟩

end

/-- The labels `@@a+//b:__subpackages__`, `@@[x]//b:__pkg__` and `@@a+//c:g`. -/
def exampleVisibility : List ResolvedLabel :=
  [⟨"@@a+//b:__subpackages__".toList, .inl ⟨"a+".toList, ["b".toList],
      ⟨by decide, by decide, by decide, by decide⟩,
      forall_mem_singleton.mpr ⟨by decide, by decide, by decide⟩,
      .inr ⟨"__subpackages__".toList, rfl⟩⟩⟩,
    ⟨"@@[x]//b:__pkg__".toList, .inr ⟨"x".toList, "b:__pkg__".toList, by decide, by decide, rfl⟩⟩,
    ⟨"@@a+//c:g".toList, .inl ⟨"a+".toList, ["c".toList],
      ⟨by decide, by decide, by decide, by decide⟩,
      forall_mem_singleton.mpr ⟨by decide, by decide, by decide⟩,
      .inr ⟨"g".toList, rfl⟩⟩⟩]

/-- The package `@@a+//b/d`. -/
def examplePackage : CanonicalPackage :=
  ⟨"@@a+//b/d".toList, "a+".toList, ["b".toList, "d".toList],
    ⟨by decide, by decide, by decide, by decide⟩,
    forall_mem_cons.mpr ⟨⟨by decide, by decide, by decide⟩,
      forall_mem_singleton.mpr ⟨by decide, by decide, by decide⟩⟩, rfl⟩

/-- Subpackages are visible, even if the package group that is included does not contain them. -/
theorem packageGroupContains_of_subpackage :
    ∃ packageGroup, newPackageGroupFromVisibility exampleVisibility = .ok packageGroup ∧
      packageGroupContains (fun _ _ => some false) packageGroup examplePackage = .ok true ∧
      Visible (fun _ _ => some false) exampleVisibility examplePackage := by
  have evaluated : (newPackageGroupFromVisibility exampleVisibility).toOption.bind (fun group =>
      (packageGroupContains (fun _ _ => some false) group examplePackage).toOption) = some true := by
    decide +kernel
  cases created : newPackageGroupFromVisibility exampleVisibility with
  | error error =>
    rw [created] at evaluated
    cases evaluated
  | ok packageGroup =>
    obtain ⟨⟨contained, searched, contained_iff⟩, -, -⟩ :=
      packageGroupContains_iff_visible (e := fun _ _ => some false) (q := examplePackage) created
        (fun _ _ => Option.some_ne_none false)
    rw [created] at evaluated
    change (packageGroupContains _ packageGroup examplePackage).toOption = some true at evaluated
    rw [searched] at evaluated
    obtain rfl : contained = true := Option.some.inj evaluated
    exact ⟨packageGroup, rfl, searched, contained_iff.mp rfl⟩

end Bonanza.Visibility
