import Bonanza.Glob.Matcher
import Bonanza.Glob.Trie

/-! # States that a matcher keeps track of

A matcher that has read a path keeps the states whose labels match the path, those of them reached
by `*`, and those reached by `**/` after any part of the path. `tracks_writeRunes` says so for every
path: `tracks_initializeWith` is about the empty one, and `Tracks.writeRune` about one more rune.
-/

namespace Bonanza.Glob

open List

variable {states : List State} {labels : List (List Token)} {children : Nat → List Nat}
  {marks : List Token → Mark} {tokens : List Token} {r : Int}

/-! ## Sets of states -/

/-- A set of the states whose labels have a property. -/
structure Collects (labels : List (List Token)) (marks : List Token → Mark) (s : StatesSet)
    (property : List Token → Prop) : Prop where
  labelled : ∀ {i : Nat}, i ∈ s.states → ∃ tokens, labels[i]? = some tokens
  mem_iff : ∀ {i : Nat} {tokens : List Token}, labels[i]? = some tokens →
    (i ∈ s.states ↔ property tokens)
  positive_iff : s.hasPositiveEndState = true ↔
    ∃ tokens ∈ labels, property tokens ∧ (marks tokens).positive = true

namespace Collects

variable {s : StatesSet} {property other : List Token → Prop}

theorem empty : Collects labels marks {} fun _ => False where
  labelled := nofun
  mem_iff := fun _ => ⟨nofun, nofun⟩
  positive_iff := ⟨nofun, fun ⟨_, _, absurd, _⟩ => absurd.elim⟩

theorem congr (collects : Collects labels marks s property)
    (same : ∀ tokens ∈ labels, property tokens ↔ other tokens) :
    Collects labels marks s other where
  labelled := collects.labelled
  mem_iff := fun label =>
    (collects.mem_iff label).trans (same _ (mem_of_getElem? label))
  positive_iff := collects.positive_iff.trans (exists_congr fun tokens =>
    and_congr_right fun member => and_congr_left fun _ => same tokens member)

theorem add (trie : Trie states labels children marks) (collects : Collects labels marks s property)
    {i : Nat} {added : List Token} (label : labels[i]? = some added) :
    Collects labels marks (s.add states i) fun tokens => property tokens ∨ tokens = added := by
  have mem_add : ∀ j, j ∈ (s.add states i).states ↔ j ∈ s.states ∨ j = i := by
    intro j
    by_cases old : i ∈ s.states
    · simp only [StatesSet.add, if_pos old]
      refine (or_iff_left_of_imp ?_).symm
      rintro rfl
      exact old
    · simp [StatesSet.add, if_neg old]
  constructor
  · intro j member
    rcases (mem_add j).mp member with old | rfl
    · exact collects.labelled old
    · exact ⟨added, label⟩
  · intro j tokens other_label
    rw [mem_add, collects.mem_iff other_label]
    refine or_congr_right ⟨?_, ?_⟩
    · rintro rfl
      exact Option.some.inj (other_label.symm.trans label)
    · rintro rfl
      exact trie.index_eq other_label label
  · have positive : (stateAt states i).getHasPositiveEndState = (marks added).positive :=
      congrArg Mark.positive (trie.mark label)
    rw [StatesSet.add, Bool.or_eq_true, collects.positive_iff, positive]
    constructor
    · rintro (⟨tokens, member, holds, marked⟩ | marked)
      · exact ⟨tokens, member, .inl holds, marked⟩
      · exact ⟨added, mem_of_getElem? label, .inr rfl, marked⟩
    · rintro ⟨tokens, member, holds | rfl, marked⟩
      · exact .inl ⟨tokens, member, holds, marked⟩
      · exact .inr marked

theorem exists_iff (collects : Collects labels marks s property) :
    (∃ i ∈ s.states, labels[i]? = some tokens) ↔ tokens ∈ labels ∧ property tokens := by
  constructor
  · rintro ⟨i, member, label⟩
    exact ⟨mem_of_getElem? label, (collects.mem_iff label).mp member⟩
  · rintro ⟨member, holds⟩
    obtain ⟨i, label⟩ := mem_iff_getElem?.mp member
    exact ⟨i, (collects.mem_iff label).mpr holds, label⟩

end Collects

/-! ## Expanding states -/

/-- Properties of the labels of the states that a matcher keeps. -/
structure Active where
  current : List Token → Prop
  stars : List Token → Prop
  starStarSlashes : List Token → Prop

open Active

/-- A matcher that keeps the states with the given properties. -/
structure Tracks (states : List State) (labels : List (List Token)) (marks : List Token → Mark)
    (m : Matcher) (active : Active) : Prop where
  states_eq : m.states = states
  current : Collects labels marks m.currentStates active.current
  stars : Collects labels marks m.currentStars active.stars
  starStarSlashes : Collects labels marks m.currentStarStarSlashes active.starStarSlashes

/-- Add states, and what can be reached from them by wildcards that match nothing. -/
def Active.expand (active : Active) (bases : List Token → Prop) : Active where
  current tokens := active.current tokens ∨
    ∃ base expansion, bases base ∧ Expansion expansion ∧ tokens = base ++ expansion
  stars tokens := active.stars tokens ∨
    ∃ base, bases base ∧ (tokens = base ++ [.star] ∨ tokens = base ++ [.starStarSlash, .star])
  starStarSlashes tokens := active.starStarSlashes tokens ∨
    ∃ base, bases base ∧ tokens = base ++ [.starStarSlash]

@[ext] theorem Active.ext {a b : Active} (current : ∀ tokens, a.current tokens ↔ b.current tokens)
    (stars : ∀ tokens, a.stars tokens ↔ b.stars tokens)
    (starStarSlashes : ∀ tokens, a.starStarSlashes tokens ↔ b.starStarSlashes tokens) : a = b := by
  cases a
  cases b
  simp only [mk.injEq]
  exact ⟨funext fun tokens => propext (current tokens), funext fun tokens => propext (stars tokens),
    funext fun tokens => propext (starStarSlashes tokens)⟩

theorem Active.expand_expand (active : Active) (first second : List Token → Prop) :
    (active.expand first).expand second =
      active.expand fun tokens => first tokens ∨ second tokens := by
  ext tokens
  all_goals
    simp only [expand, or_and_right, exists_or]
    rw [or_assoc]

theorem Active.expand_false (active : Active) : active.expand (fun _ => False) = active := by
  ext tokens
  all_goals simp [expand]

namespace Tracks

variable {m : Matcher} {active other : Active}

theorem congr (tracks : Tracks states labels marks m active)
    (current : ∀ tokens ∈ labels, active.current tokens ↔ other.current tokens)
    (stars : ∀ tokens ∈ labels, active.stars tokens ↔ other.stars tokens)
    (starStarSlashes : ∀ tokens ∈ labels,
      active.starStarSlashes tokens ↔ other.starStarSlashes tokens) :
    Tracks states labels marks m other :=
  ⟨tracks.states_eq, tracks.current.congr current, tracks.stars.congr stars,
    tracks.starStarSlashes.congr starStarSlashes⟩

section

variable (trie : Trie states labels children marks) (tracks : Tracks states labels marks m active)
  {i : Nat} {base : List Token} (label : labels[i]? = some base)

include trie tracks label

theorem expandState1 : Tracks states labels marks (m.expandState1 i)
    { active with current := fun tokens => active.current tokens ∨ tokens = base } := by
  refine ⟨tracks.states_eq, ?_, tracks.stars, tracks.starStarSlashes⟩
  rw [Matcher.expandState1, tracks.states_eq]
  exact tracks.current.add trie label

theorem addStar :
    Tracks states labels marks { m with currentStars := m.currentStars.add m.states i }
      { active with stars := fun tokens => active.stars tokens ∨ tokens = base } := by
  refine ⟨tracks.states_eq, tracks.current, ?_, tracks.starStarSlashes⟩
  rw [tracks.states_eq]
  exact tracks.stars.add trie label

theorem addStarStarSlash :
    Tracks states labels marks
      { m with currentStarStarSlashes := m.currentStarStarSlashes.add m.states i }
      { active with
        starStarSlashes := fun tokens => active.starStarSlashes tokens ∨ tokens = base } := by
  refine ⟨tracks.states_eq, tracks.current, tracks.stars, ?_⟩
  rw [tracks.states_eq]
  exact tracks.starStarSlashes.add trie label

theorem expandState2 : Tracks states labels marks (m.expandState2 i)
    { active with
      current := fun tokens => active.current tokens ∨ tokens = base ∨ tokens = base ++ [.star]
      stars := fun tokens => active.stars tokens ∨ tokens = base ++ [.star] } := by
  have first := tracks.expandState1 trie label
  rw [Matcher.expandState2]
  split
  · next found =>
      rw [first.states_eq] at found
      have star := (trie.edge label .star _).mp ⟨found, rfl⟩
      rw [← first.states_eq] at star
      have second := (first.addStar trie star).expandState1 trie star
      simpa only [or_assoc] using second
  · next missing =>
      rw [first.states_eq] at missing
      have absent : ∀ tokens ∈ labels, tokens ≠ base ++ [.star] := by
        rintro tokens member rfl
        exact trie.not_mem_of_wildcard .star label nofun (not_not.mp missing) member
      refine first.congr (fun tokens member => ?_) (fun tokens member => ?_) fun _ _ => Iff.rfl
      · simp [absent tokens member]
      · simp [absent tokens member]

/-- Adding a state also adds those that may be skipped to. -/
theorem expandState3 : Tracks states labels marks (m.expandState3 i)
    (active.expand (· = base)) := by
  have first := tracks.expandState2 trie label
  have expansions : ∀ tokens : List Token,
      (∃ other expansion, other = base ∧ Expansion expansion ∧ tokens = other ++ expansion) ↔
        (tokens = base ∨ tokens = base ++ [.star]) ∨
          tokens = base ++ [.starStarSlash] ∨ tokens = base ++ [.starStarSlash] ++ [.star] := by
    intro tokens
    constructor
    · rintro ⟨_, expansion, rfl, expands, rfl⟩
      cases expands <;> simp
    · rintro ((rfl | rfl) | rfl | rfl)
      · exact ⟨_, [], rfl, .nil, (append_nil _).symm⟩
      · exact ⟨_, _, rfl, .star, rfl⟩
      · exact ⟨_, _, rfl, .starStarSlash, rfl⟩
      · exact ⟨_, _, rfl, .starStarSlashStar, append_assoc ..⟩
  rw [Matcher.expandState3]
  split
  · next found =>
      rw [first.states_eq] at found
      have starStarSlash := (trie.edge label .starStarSlash _).mp ⟨found, rfl⟩
      rw [← first.states_eq] at starStarSlash
      have second := (first.addStarStarSlash trie starStarSlash).expandState2 trie starStarSlash
      refine second.congr (fun tokens _ => ?_) (fun tokens _ => ?_) fun tokens _ => ?_
      · simp only [expand, expansions, or_assoc]
      · simp [expand, or_assoc]
      · simp [expand]
  · next missing =>
      rw [first.states_eq] at missing
      have absent : ∀ tokens ∈ labels, tokens ≠ base ++ [.starStarSlash] := by
        rintro tokens member rfl
        exact trie.not_mem_of_wildcard .starStarSlash label nofun (not_not.mp missing) member
      have absent_star : ∀ tokens ∈ labels, tokens ≠ base ++ [.starStarSlash] ++ [.star] := by
        rintro tokens member rfl
        exact absent _ (trie.parent member) rfl
      refine first.congr (fun tokens member => ?_) (fun tokens member => ?_) fun tokens member => ?_
      · simp only [expand, expansions, absent tokens member, absent_star tokens member, or_false]
      · have other := absent_star tokens member
        rw [append_assoc] at other
        simp only [expand, exists_eq_left]
        exact or_congr_right (or_iff_left other).symm
      · simp [expand, absent tokens member]

end

/-! ## Loops -/

variable (trie : Trie states labels children marks)

include trie

variable (tracks : Tracks states labels marks m active)

include tracks

theorem expandStates {indices : List Nat}
    (labelled : ∀ {i}, i ∈ indices → ∃ tokens, labels[i]? = some tokens) :
    Tracks states labels marks (indices.foldl Matcher.expandState3 m)
      (active.expand fun tokens => ∃ i ∈ indices, labels[i]? = some tokens) := by
  induction indices generalizing m active with
  | nil => simpa [expand_false] using tracks
  | cons i indices ih =>
    obtain ⟨base, label⟩ := labelled mem_cons_self
    have first := tracks.expandState3 trie label
    have rest := ih first fun member => labelled (mem_cons_of_mem i member)
    rw [expand_expand] at rest
    simpa [label, eq_comm] using rest

/-- Follow the edge for a rune, if any. Edges are sorted, so the search ends at a higher rune. -/
theorem matchRunes {nodes : List Nat}
    (sorted : nodes.Pairwise fun j k => (node states j).rune < (node states k).rune)
    (labelled : ∀ {j}, j ∈ nodes → ∃ tokens, labels[j]? = some tokens) :
    Tracks states labels marks (m.matchRunes r nodes) (active.expand fun tokens =>
      ∃ j ∈ nodes, (node states j).rune = r ∧ labels[j]? = some tokens) := by
  induction nodes generalizing m active with
  | nil => simpa [expand_false, Matcher.matchRunes] using tracks
  | cons j nodes ih =>
    obtain ⟨above, sorted⟩ := pairwise_cons.mp sorted
    obtain ⟨base, label⟩ := labelled mem_cons_self
    have labelled_rest : ∀ {k}, k ∈ nodes → ∃ tokens, labels[k]? = some tokens := fun member =>
      labelled (mem_cons_of_mem j member)
    have rune_eq : (stateAt m.states j).getCurrentRune = (node states j).rune := by
      rw [tracks.states_eq]
      rfl
    simp only [Matcher.matchRunes, rune_eq]
    split
    · next same =>
        have rest := ih (tracks.expandState3 trie label) sorted labelled_rest
        rw [expand_expand] at rest
        simpa [label, same, eq_comm] using rest
    · next different =>
        split
        · next below =>
            have none : (fun tokens => ∃ k ∈ j :: nodes, (node states k).rune = r ∧
                labels[k]? = some tokens) = fun _ => False := by
              funext tokens
              refine eq_false ?_
              rintro ⟨k, member, same, -⟩
              rcases mem_cons.mp member with rfl | later
              · exact different same.symm
              · exact Int.ne_of_gt (Int.lt_trans below (above k later)) same
            rwa [none, expand_false]
        · have rest := ih tracks sorted labelled_rest
          simpa [Ne.symm different] using rest

theorem followRunes (r : Int) (indices : List Nat) :
    Tracks states labels marks
      (indices.foldl (fun m i => m.matchRunes r (runeIndices m.states i)) m)
      (active.expand fun tokens => ∃ i ∈ indices, ∃ j ∈ children i,
        (node states j).rune = r ∧ labels[j]? = some tokens) := by
  induction indices generalizing m active with
  | nil => simpa [expand_false] using tracks
  | cons i indices ih =>
    have first := tracks.matchRunes trie (r := r) (trie.sorted i) fun child =>
      trie.exists_label (trie.child_lt child)
    have rest := ih first
    rw [expand_expand] at rest
    rw [foldl_cons, tracks.states_eq, trie.runeIndices_eq]
    simpa using rest

omit tracks

end Tracks

/-! ## Paths -/

/-- What a matcher keeps once it has read a path. -/
def reading (path : List Int) : Active where
  current tokens := path ∈ language tokens
  stars tokens := tokens.getLast? = some .star ∧ path ∈ language tokens
  starStarSlashes tokens := ∃ before, tokens = before ++ [.starStarSlash] ∧
    ∃ earlier, earlier <+: path ∧ earlier ∈ language before

/-- What remains of it when one more rune is read, before states are added. -/
def remaining (path : List Int) (r : Int) : Active where
  current _ := False
  stars tokens := r ≠ slash ∧ (reading path).stars tokens
  starStarSlashes := (reading path).starStarSlashes

theorem Expansion.eq_nil_of_append {expansion : List Token} (expands : Expansion expansion)
    (tokens : List Token) (proper : Proper (tokens ++ expansion ++ [.starStarSlash])) :
    expansion = [] := by
  have follows := (proper_concat.mp proper).2
  cases expands with
  | nil => rfl
  | star => cases follows .star (by simp)
  | starStarSlash => cases follows .starStarSlash (by simp)
  | starStarSlashStar => cases follows .star (by simp)

section

variable {path : List Int} {r : Int} {tokens : List Token} (proper : Proper tokens)
  {property : List Token → Prop}
  (bases : ∀ base more, tokens = base ++ more → (property base ↔ Advances base path r))

include proper bases

theorem current_expand_remaining :
    ((remaining path r).expand property).current tokens ↔ (reading (path ++ [r])).current tokens := by
  change (False ∨ _) ↔ path ++ [r] ∈ language tokens
  rw [false_or, mem_language_append_rune proper]
  constructor
  · rintro ⟨base, expansion, holds, expands, same⟩
    exact ⟨base, expansion, same, expands, (bases base expansion same).mp holds⟩
  · rintro ⟨base, expansion, same, expands, advances⟩
    exact ⟨base, expansion, (bases base expansion same).mpr advances, expands, same⟩

theorem stars_expand_remaining :
    ((remaining path r).expand property).stars tokens ↔ (reading (path ++ [r])).stars tokens := by
  constructor
  · rintro (⟨inside, last, matched⟩ | ⟨base, holds, same | same⟩)
    · obtain ⟨before, rfl⟩ := getLast?_eq_some_iff.mp last
      exact ⟨last, (Advances.star inside matched).mem_language⟩
    · have advances := (bases base _ same).mp holds
      subst same
      exact ⟨getLast?_concat, Expansion.star.mem_language_append advances.mem_language⟩
    · have advances := (bases base _ same).mp holds
      subst same
      exact ⟨by simp, Expansion.starStarSlashStar.mem_language_append advances.mem_language⟩
  · rintro ⟨last, matched⟩
    obtain ⟨base, expansion, same, expands,
      advances⟩ := (mem_language_append_rune proper).mp matched
    have holds := (bases base expansion same).mpr advances
    cases expands with
    | nil =>
      obtain ⟨before, rfl⟩ := getLast?_eq_some_iff.mp last
      rw [append_nil] at same
      subst same
      obtain ⟨inside, matched⟩ := advances_star_iff.mp advances
      exact .inl ⟨inside, last, matched⟩
    | star => exact .inr ⟨base, holds, .inl same⟩
    | starStarSlash =>
      rw [same, getLast?_concat] at last
      cases last
    | starStarSlashStar => exact .inr ⟨base, holds, .inr same⟩

theorem starStarSlashes_expand_remaining :
    ((remaining path r).expand property).starStarSlashes tokens ↔
      (reading (path ++ [r])).starStarSlashes tokens := by
  constructor
  · rintro (⟨before, same, earlier, shorter, matched⟩ | ⟨base, holds, same⟩)
    · exact ⟨before, same, earlier, shorter.trans (prefix_append path [r]), matched⟩
    · have advances := (bases base _ same).mp holds
      exact ⟨base, same, path ++ [r], prefix_rfl, advances.mem_language⟩
  · rintro ⟨before, same, earlier, shorter, matched⟩
    rcases prefix_concat_iff.mp shorter with rfl | shorter
    · subst same
      -- The label before the wildcard ends in a rune, which has to be the one that was read.
      obtain ⟨base, expansion, rfl, expands, advances⟩ :=
        (mem_language_append_rune (proper_concat.mp proper).1).mp matched
      cases expands.eq_nil_of_append base proper
      rw [append_nil] at bases ⊢
      exact .inr ⟨base, (bases base _ rfl).mpr advances, rfl⟩
    · exact .inl ⟨before, same, earlier, shorter, matched⟩

end

theorem tracks_initializeWith (trie : Trie states labels children marks) (m : Matcher) :
    Tracks states labels marks (m.initializeWith ⟨states⟩) (reading []) := by
  have empty : Tracks states labels marks { states } ⟨fun _ => False, fun _ => False, fun _ => False⟩ :=
    ⟨rfl, Collects.empty, Collects.empty, Collects.empty⟩
  refine (empty.expandState3 trie trie.root).congr (fun tokens member => ?_)
    (fun tokens member => ?_) fun tokens member => ?_
  · simp [expand, reading, nil_mem_language (trie.proper tokens member)]
  · simp only [expand, reading, nil_mem_language (trie.proper tokens member), false_or,
      exists_eq_left, nil_append]
    constructor
    · rintro (rfl | rfl)
      · exact ⟨rfl, .star⟩
      · exact ⟨rfl, .starStarSlashStar⟩
    · rintro ⟨last, expands⟩
      cases expands with
      | nil => cases last
      | star => exact .inl rfl
      | starStarSlash => cases last
      | starStarSlashStar => exact .inr rfl
  · simp only [expand, reading, false_or, exists_eq_left, nil_append]
    constructor
    · rintro rfl
      exact ⟨[], rfl, [], prefix_rfl, rfl⟩
    · rintro ⟨before, rfl, earlier, shorter, matched⟩
      have proper := trie.proper _ member
      rw [prefix_nil.mp shorter, nil_mem_language (proper_concat.mp proper).1] at matched
      cases matched.eq_nil_of_append [] proper
      rfl

/-- Which labels consume a rune, in terms of what a matcher keeps. -/
theorem advances_iff {base : List Token} {path : List Int} :
    Advances base path r ↔
      (∃ before, base = before ++ [.rune r] ∧ path ∈ language before) ∨
        r ≠ slash ∧ (reading path).stars base ∨
        r = slash ∧ (reading path).starStarSlashes base := by
  constructor
  · intro advances
    cases advances with
    | rune matched => exact .inl ⟨_, rfl, matched⟩
    | star inside matched => exact .inr (.inl ⟨inside, getLast?_concat, matched⟩)
    | starStarSlash earlier matched => exact .inr (.inr ⟨rfl, _, rfl, _, earlier, matched⟩)
  · rintro (⟨before, rfl, matched⟩ | ⟨inside, last, matched⟩ | ⟨rfl, _, rfl, _, earlier, matched⟩)
    · exact .rune matched
    · obtain ⟨before, rfl⟩ := getLast?_eq_some_iff.mp last
      exact .star inside matched
    · exact .starStarSlash earlier matched

namespace Tracks

variable {m : Matcher} {path : List Int} (trie : Trie states labels children marks)

include trie

variable (tracks : Tracks states labels marks m (reading path))

include tracks

theorem exists_child_iff :
    (∃ i ∈ m.currentStates.states, ∃ j ∈ children i,
      (node states j).rune = r ∧ labels[j]? = some tokens) ↔
    tokens ∈ labels ∧ ∃ before, tokens = before ++ [.rune r] ∧ path ∈ language before := by
  constructor
  · rintro ⟨i, kept, j, child, rfl, label⟩
    obtain ⟨before, parent⟩ := tracks.current.labelled kept
    have same := label.symm.trans (trie.label_of_child parent child)
    exact ⟨mem_of_getElem? label, before, Option.some.inj same,
      (tracks.current.mem_iff parent).mp kept⟩
  · rintro ⟨member, before, rfl, matched⟩
    obtain ⟨i, parent⟩ := mem_iff_getElem?.mp (trie.parent member)
    obtain ⟨j, label⟩ := mem_iff_getElem?.mp member
    obtain ⟨child, same⟩ := (trie.edge parent (.rune r) j).mpr label
    exact ⟨i, (tracks.current.mem_iff parent).mpr matched, j, child, same, label⟩

theorem expandWildcards (r : Int) :
    Tracks states labels marks
      (if r = slash then
        m.currentStarStarSlashes.states.foldl Matcher.expandState3
          { m with currentStates := {}, currentStars := {} }
      else m.currentStars.states.foldl Matcher.expandState3 { m with currentStates := {} })
      ((remaining path r).expand fun tokens => tokens ∈ labels ∧
        (r ≠ slash ∧ (reading path).stars tokens ∨
          r = slash ∧ (reading path).starStarSlashes tokens)) := by
  split
  · next same =>
      have cleared : Tracks states labels marks { m with currentStates := {}, currentStars := {} }
          (remaining path r) :=
        ⟨tracks.states_eq, Collects.empty,
          Collects.empty.congr fun _ _ => iff_of_false id fun kept => kept.1 same,
          tracks.starStarSlashes⟩
      have expanded := cleared.expandStates trie tracks.starStarSlashes.labelled
      simpa [tracks.starStarSlashes.exists_iff, same] using expanded
  · next different =>
      have cleared : Tracks states labels marks { m with currentStates := {} } (remaining path r) :=
        ⟨tracks.states_eq, Collects.empty,
          tracks.stars.congr fun _ _ => (and_iff_right different).symm,
          tracks.starStarSlashes⟩
      have expanded := cleared.expandStates trie tracks.stars.labelled
      simpa [tracks.stars.exists_iff, different] using expanded

/-- Writing a rune advances all paths. -/
theorem writeRune (r : Int) :
    Tracks states labels marks (m.writeRune r) (reading (path ++ [r])) := by
  have followed := (tracks.expandWildcards trie r).followRunes trie r m.currentStates.states
  rw [expand_expand] at followed
  simp only [tracks.exists_child_iff trie] at followed
  have bases : ∀ tokens ∈ labels, ∀ base more, tokens = base ++ more →
      ((base ∈ labels ∧ (r ≠ slash ∧ (reading path).stars base ∨
          r = slash ∧ (reading path).starStarSlashes base) ∨
        base ∈ labels ∧ ∃ before, base = before ++ [.rune r] ∧ path ∈ language before) ↔
        Advances base path r) := by
    rintro tokens member base more rfl
    have base_member := trie.mem_of_append member
    rw [advances_iff, and_iff_right base_member, and_iff_right base_member]
    exact or_comm
  exact followed.congr
    (fun tokens member => current_expand_remaining (trie.proper tokens member) (bases _ member))
    (fun tokens member => stars_expand_remaining (trie.proper tokens member) (bases _ member))
    (fun tokens member =>
      starStarSlashes_expand_remaining (trie.proper tokens member) (bases _ member))

omit tracks

end Tracks

theorem tracks_writeRunes (trie : Trie states labels children marks) (m : Matcher)
    (path : List Int) :
    Tracks states labels marks ((m.initializeWith ⟨states⟩).writeRunes path) (reading path) := by
  induction path using List.reverseRecOn with
  | nil => exact tracks_initializeWith trie m
  | append_singleton path r ih =>
    rw [Matcher.writeRunes, foldl_append]
    exact ih.writeRune trie r

end Bonanza.Glob
