import Bonanza.Glob.Compile
import Bonanza.Glob.Propagation
import Bonanza.Glob.Tracking

/-! # Correctness of matching

A matcher for patterns that were compiled accepts exactly the paths that some pattern to include
matches, and that no pattern to exclude matches (`isMatch_iff_of_newNFAFromPatterns`), as states get
a negative end state for patterns to exclude first. `isMatch_iff_of_newNFAFromSuffixes` says the
same for suffixes.

If `WriteRune` says that no match is possible anymore, there is none
(`isMatch_eq_false_of_stopped`): whatever matches a longer path has a part of which the matcher
keeps the state. Conversely, a match it considers possible exists
(`exists_matches_of_hasPositiveEndState`).
-/

namespace Bonanza.Glob

open List Fallible

variable {states : List State} {labels : List (List Token)} {children : Nat → List Nat}
  {marks : List Token → Mark} {m : Matcher} {active : Active} {path : List Int}

/-! ## The result of a matcher -/

theorem foldl_max_spec {α : Type*} (f : α → Nat) (list : List α) (start : Nat) :
    let result := list.foldl (fun highest a => if highest < f a then f a else highest) start
    start ≤ result ∧ (∀ a ∈ list, f a ≤ result) ∧ (result = start ∨ ∃ a ∈ list, result = f a) := by
  induction list generalizing start with
  | nil => exact ⟨le_refl start, nofun, .inl rfl⟩
  | cons first list ih =>
    obtain ⟨lower, upper, reached⟩ := ih (if start < f first then f first else start)
    have start_le : start ≤ if start < f first then f first else start := by split <;> omega
    have first_le : f first ≤ if start < f first then f first else start := by split <;> omega
    refine ⟨le_trans start_le lower, ?_, ?_⟩
    · intro a member
      rcases mem_cons.mp member with rfl | later
      · exact le_trans first_le lower
      · exact upper a later
    · rcases reached with same | ⟨a, later, same⟩
      · rw [foldl_cons, same]
        split
        · exact .inr ⟨first, mem_cons_self, rfl⟩
        · exact .inl rfl
      · exact .inr ⟨a, mem_cons_of_mem first later, same⟩

theorem Tracks.isMatch_iff (trie : Trie states labels children marks)
    (tracks : Tracks states labels marks m active) :
    m.isMatch = true ↔
      (∃ tokens ∈ labels, active.current tokens ∧ (marks tokens).endState = endStatePositive) ∧
      ∀ tokens ∈ labels, active.current tokens → (marks tokens).endState ≤ endStatePositive := by
  have endState : ∀ {i tokens}, labels[i]? = some tokens →
      (stateAt m.states i).getEndState = (marks tokens).endState := by
    intro i tokens label
    rw [tracks.states_eq]
    exact congrArg Mark.endState (trie.mark label)
  obtain ⟨-, upper, reached⟩ := foldl_max_spec (fun i => (stateAt m.states i).getEndState)
    m.currentStates.states endStateNone
  simp only [Matcher.isMatch, decide_eq_true_iff]
  generalize m.currentStates.states.foldl (fun highest i =>
    if highest < (stateAt m.states i).getEndState then (stateAt m.states i).getEndState
    else highest) endStateNone = result at upper reached ⊢
  constructor
  · intro positive
    subst positive
    constructor
    · rcases reached with none | ⟨i, member, same⟩
      · cases none
      · obtain ⟨tokens, label⟩ := tracks.current.labelled member
        exact ⟨tokens, mem_of_getElem? label, (tracks.current.mem_iff label).mp member,
          (endState label).symm.trans same.symm⟩
    · intro tokens member kept
      obtain ⟨i, label⟩ := mem_iff_getElem?.mp member
      exact endState label ▸ upper i ((tracks.current.mem_iff label).mpr kept)
  · rintro ⟨⟨tokens, member, kept, positive⟩, below⟩
    obtain ⟨i, label⟩ := mem_iff_getElem?.mp member
    have lower := upper i ((tracks.current.mem_iff label).mpr kept)
    simp only [endState label, positive] at lower
    refine Nat.le_antisymm ?_ lower
    rcases reached with none | ⟨j, other, same⟩
    · exact none ▸ Nat.zero_le endStatePositive
    · obtain ⟨others, other_label⟩ := tracks.current.labelled other
      rw [same]
      simp only [endState other_label]
      exact below others (mem_of_getElem? other_label)
        ((tracks.current.mem_iff other_label).mp other)

/-- The result of `WriteRune`. -/
theorem Tracks.hasPositiveEndState_iff (tracks : Tracks states labels marks m active) :
    m.hasPositiveEndState = true ↔
      ∃ tokens ∈ labels, (active.current tokens ∨ active.stars tokens ∨
        active.starStarSlashes tokens) ∧ (marks tokens).positive = true := by
  rw [Matcher.hasPositiveEndState, Bool.or_eq_true, Bool.or_eq_true, tracks.current.positive_iff,
    tracks.stars.positive_iff, tracks.starStarSlashes.positive_iff]
  simp [or_and_right, and_or_left, exists_or, or_assoc]

/-! ## Patterns -/

/-- The marks of the tree for patterns. -/
def patternMarks (includes excludes : List (List Char)) : List Token → Mark :=
  setEndStates (setEndStates (fun _ => {}) (endedTokens includes) endStatePositive)
    (endedTokens excludes) endStateNegative

/-- The states form a trie of the tokens of all patterns. -/
theorem newNFAFromPatterns_spec (includes excludes : List (List Char)) :
    Meets (newNFAFromPatterns includes excludes)
      (fun nfa => (∀ pattern ∈ includes ++ excludes, tokenize pattern ≠ none) ∧
        ∃ labels children,
          Trie nfa.states labels children (propagated (patternMarks includes excludes)) ∧
          ∀ tokens, tokens ∈ labels ↔ tokens ∈ [[]] ∨
            ∃ ended ∈ endedTokens (includes ++ excludes), tokens <+: ended)
      fun _ => (∀ pattern ∈ includes ++ excludes, tokenize pattern ≠ none) →
        Overflows [[]] (endedTokens (includes ++ excludes)) := by
  have included := endedTokens_subset (subset_append_left includes excludes)
  have excluded := endedTokens_subset (subset_append_right includes excludes)
  refine ((addPatterns_spec Trie.initial .includes includes (by decide)).imp_failure ?_).bind ?_
  · intro _ overflows valid
    exact (overflows (forall_mem_append.mp valid).1).mono included fun _ => .inl
  rintro states₁ ⟨valid₁, labels₁, children₁, trie₁, mem_iff₁⟩
  refine ((addPatterns_spec trie₁ .excludes excludes (by decide)).imp_failure ?_).bind ?_
  · intro _ overflows valid
    refine (overflows (forall_mem_append.mp valid).2).mono excluded fun others member => ?_
    refine ((mem_iff₁ others).mp member).imp_right ?_
    rintro ⟨tokens, member, first⟩
    exact ⟨tokens, included member, first⟩
  rintro states₂ ⟨valid₂, labels₂, children₂, trie₂, mem_iff₂⟩
  refine ⟨forall_mem_append.mpr ⟨valid₁, valid₂⟩, labels₂, children₂, ?_, fun tokens => ?_⟩
  · refine propagateHasPositiveEndState_spec trie₂ fun tokens => ?_
    simp [patternMarks, positive_setEndStates]
  · rw [mem_iff₂, mem_iff₁, endedTokens_append]
    simp [or_and_right, exists_or, or_assoc]

/-- A path is accepted if some label with a positive end state matches it, and no negative one. -/
theorem Trie.isMatch_iff {included excluded : List (List Token)}
    (trie : Trie states labels children (propagated (setEndStates (setEndStates (fun _ => {})
      included endStatePositive) excluded endStateNegative))) (m : Matcher) (path : List Int) :
    ((m.initializeWith ⟨states⟩).writeRunes path).isMatch = true ↔
      (∃ tokens ∈ included, path ∈ language tokens) ∧
        ¬ ∃ tokens ∈ excluded, path ∈ language tokens := by
  rw [(tracks_writeRunes trie m path).isMatch_iff trie]
  have endState : ∀ tokens, (propagated (setEndStates (setEndStates (fun _ => {}) included
      endStatePositive) excluded endStateNegative) tokens).endState =
      if tokens ∈ excluded then endStateNegative
      else if tokens ∈ included then endStatePositive else endStateNone := by
    intro tokens
    rw [endState_propagated, endState_setEndStates, endState_setEndStates]
  constructor
  · rintro ⟨⟨tokens, member, matched, positive⟩, below⟩
    constructor
    · refine ⟨tokens, ?_, matched⟩
      rw [endState] at positive
      split at positive
      · cases positive
      · split at positive
        · assumption
        · cases positive
    · rintro ⟨others, excluded, matched⟩
      have negative := (endState others).trans (if_pos excluded)
      have low := below others (trie.mem_of_endState (by rw [negative]; decide)) matched
      rw [negative] at low
      exact absurd low (by decide)
  · rintro ⟨⟨tokens, included, matched⟩, none⟩
    have allowed : ∀ others, path ∈ language others → others ∉ excluded := fun others matched member =>
      none ⟨others, member, matched⟩
    have positive := (endState tokens).trans ((if_neg (allowed tokens matched)).trans (if_pos included))
    refine ⟨⟨tokens, trie.mem_of_endState (by rw [positive]; decide), matched, positive⟩, ?_⟩
    intro others _ matched
    rw [endState, if_neg (allowed others matched)]
    split <;> decide

/-- For all patterns that can be compiled, a path is accepted exactly if some pattern to include
matches it, and no pattern to exclude does. -/
theorem isMatch_iff_of_newNFAFromPatterns {includes excludes : List (List Char)} {nfa : NFA}
    (compiled : newNFAFromPatterns includes excludes = .ok nfa) (m : Matcher) (path : List Int) :
    ((m.initializeWith nfa).writeRunes path).isMatch = true ↔
      (∃ pattern ∈ includes, Matches pattern path) ∧
        ¬ ∃ pattern ∈ excludes, Matches pattern path := by
  obtain ⟨valid, labels, children, trie, -⟩ :=
    (newNFAFromPatterns_spec includes excludes).of_eq_ok compiled
  obtain ⟨includes_valid, excludes_valid⟩ := forall_mem_append.mp valid
  rw [exists_matches_iff includes_valid, exists_matches_iff excludes_valid]
  exact trie.isMatch_iff m path

/-- Everything but what is in a directory, and not a certain file. -/
theorem isMatch_iff_of_star : ∃ nfa, newNFAFromPatterns [['*']] [['a']] = .ok nfa ∧
    ((({} : Matcher).initializeWith nfa).writeRunes ['b'.toNat]).isMatch = true ∧
    (((({} : Matcher).initializeWith nfa).writeRunes ['b'.toNat]).isMatch = true ↔
      (∃ pattern ∈ [['*']], Matches pattern ['b'.toNat]) ∧
        ¬ ∃ pattern ∈ [['a']], Matches pattern ['b'.toNat]) :=
  ⟨_, rfl, by decide, isMatch_iff_of_newNFAFromPatterns rfl {} ['b'.toNat]⟩

/-! ## Suffixes -/

theorem newNFAFromSuffixes_spec {suffixes : List (List Char)} {nfa : NFA}
    (compiled : newNFAFromSuffixes suffixes = .ok nfa) :
    ∃ labels children, Trie nfa.states labels children (propagated (setEndStates (fun _ => {})
      (suffixes.map suffixTokens) endStatePositive)) ∧
      ∀ tokens, tokens ∈ labels ↔ tokens ∈ [[]] ∨
        ∃ ended ∈ suffixes.map suffixTokens, tokens <+: ended := by
  obtain ⟨states, added, ⟨⟩⟩ := bind_eq_ok_iff.mp compiled
  obtain ⟨labels, children, trie, mem_iff⟩ := addSuffixes_spec added
  refine ⟨labels, children, propagateHasPositiveEndState_spec trie fun tokens => ?_, mem_iff⟩
  rw [positive_setEndStates]

theorem mem_language_filename (path : List Int) :
    path ∈ language ([.starStarSlash] ++ [.star]) := by
  have nothing : ([] : List Int) ∈ language [] := rfl
  induction path using List.reverseRecOn with
  | nil => exact Expansion.starStarSlashStar.mem_language_append nothing
  | append_singleton path r ih =>
    by_cases separator : r = slash
    · subst separator
      have ended : path ++ [slash] ∈ language ([] ++ [.starStarSlash]) :=
        (Advances.starStarSlash nil_prefix nothing).mem_language
      exact Expansion.star.mem_language_append ended
    · exact (Advances.star separator ih).mem_language

theorem mem_language_runes {suffix : List Char} :
    path ∈ language (suffix.map fun c => .rune c.toNat) ↔
      path = suffix.map fun c => (c.toNat : Int) := by
  induction suffix generalizing path with
  | nil => exact Iff.rfl
  | cons c suffix ih =>
    constructor
    · rintro ⟨_, rfl, rest, matched, rfl⟩
      rw [ih.mp matched]
      rfl
    · rintro rfl
      exact ⟨_, rfl, _, ih.mpr rfl, rfl⟩

/-- For all suffixes that can be compiled, a path is accepted exactly if it ends in one of
them. -/
theorem isMatch_iff_of_newNFAFromSuffixes {suffixes : List (List Char)} {nfa : NFA}
    (compiled : newNFAFromSuffixes suffixes = .ok nfa) (m : Matcher) (path : List Int) :
    ((m.initializeWith nfa).writeRunes path).isMatch = true ↔
      ∃ suffix ∈ suffixes, suffix.map (fun c => (c.toNat : Int)) <:+ path := by
  obtain ⟨labels, children, trie, -⟩ := newNFAFromSuffixes_spec compiled
  have ends : ∀ suffix, path ∈ language (suffixTokens suffix) ↔
      suffix.map (fun c => (c.toNat : Int)) <:+ path := by
    intro suffix
    rw [suffixTokens, language_append, Language.mem_mul]
    simp only [mem_language_runes]
    constructor
    · rintro ⟨before, -, _, rfl, rfl⟩
      exact suffix_append ..
    · rintro ⟨before, rfl⟩
      exact ⟨before, mem_language_filename before, _, rfl, rfl⟩
  have accepted := @Trie.isMatch_iff _ _ _ (suffixes.map suffixTokens) [] trie m path
  simpa [ends] using accepted

/-- A filename that ends in a suffix that overlaps itself. -/
theorem isMatch_iff_of_overlap : ∃ nfa, newNFAFromSuffixes [['a', 'b', 'a']] = .ok nfa ∧
    ((({} : Matcher).initializeWith nfa).writeRunes [0x61, 0x62, 0x61, 0x62, 0x61]).isMatch = true :=
  ⟨_, rfl, (isMatch_iff_of_newNFAFromSuffixes rfl {} _).mpr
    ⟨['a', 'b', 'a'], mem_singleton_self _, [0x61, 0x62], rfl⟩⟩

/-! ## Early termination -/

theorem exists_reading {tokens : List Token} {rest : List Int}
    (matched : path ++ rest ∈ language tokens) :
    ∃ before more, tokens = before ++ more ∧
      ((reading path).current before ∨ (reading path).starStarSlashes before) := by
  induction tokens using List.reverseRecOn generalizing rest with
  | nil =>
    have empty : path ++ rest = [] := matched
    exact ⟨[], [], rfl, .inl (append_eq_nil_iff.mp empty).1⟩
  | append_singleton tokens token ih =>
    obtain ⟨earlier, matched_earlier, word, consumed, split⟩ := mem_language_concat.mp matched
    rcases append_eq_append_iff.mp split with ⟨started, rfl, rfl⟩ | ⟨remaining, rfl, rfl⟩
    · cases token with
      | rune r =>
        rcases append_eq_singleton_iff.mp consumed with ⟨rfl, -⟩ | ⟨-, rfl⟩
        · exact ⟨tokens, _, rfl, .inl (by rwa [append_nil])⟩
        · exact ⟨_, [], (append_nil _).symm, .inl (by rwa [append_nil] at matched)⟩
      | star =>
        refine ⟨_, [], (append_nil _).symm, .inl (mem_language_concat.mpr
          ⟨earlier, matched_earlier, started, fun r member => ?_, rfl⟩)⟩
        exact consumed r (mem_append_left _ member)
      | starStarSlash =>
        exact ⟨_, [], (append_nil _).symm,
          .inr ⟨tokens, rfl, earlier, prefix_append .., matched_earlier⟩⟩
    · obtain ⟨before, more, rfl, kept⟩ := ih matched_earlier
      exact ⟨before, more ++ [token], append_assoc .., kept⟩

/-- If `WriteRune` returns that no match is possible for the last rune of a path, no longer path is
accepted. -/
theorem isMatch_eq_false_of_stopped {nfa : NFA}
    (built : (∃ includes excludes, newNFAFromPatterns includes excludes = .ok nfa) ∨
      ∃ suffixes, newNFAFromSuffixes suffixes = .ok nfa) (m : Matcher) {path : List Int}
    (nonempty : path ≠ [])
    (stopped : ((m.initializeWith nfa).writeRunes path).hasPositiveEndState = false)
    (rest : List Int) : ((m.initializeWith nfa).writeRunes (path ++ rest)).isMatch = false := by
  obtain ⟨labels, children, marks, trie⟩ : ∃ labels children marks,
      Trie nfa.states labels children (propagated marks) := by
    rcases built with ⟨includes, excludes, compiled⟩ | ⟨suffixes, compiled⟩
    · obtain ⟨-, labels, children, trie, -⟩ :=
        (newNFAFromPatterns_spec includes excludes).of_eq_ok compiled
      exact ⟨labels, children, _, trie⟩
    · obtain ⟨labels, children, trie, -⟩ := newNFAFromSuffixes_spec compiled
      exact ⟨labels, children, _, trie⟩
  rw [Bool.eq_false_iff] at stopped ⊢
  intro accepted
  obtain ⟨⟨tokens, member, matched, positive⟩, -⟩ :=
    ((tracks_writeRunes trie m (path ++ rest)).isMatch_iff trie).mp accepted
  obtain ⟨before, more, rfl, kept⟩ := exists_reading matched
  have not_root : before ≠ [] := by
    rintro rfl
    rcases kept with empty | ⟨others, same, -⟩
    · exact nonempty empty
    · exact append_ne_nil_of_right_ne_nil others (cons_ne_nil _ _) same.symm
  exact stopped ((tracks_writeRunes trie m path).hasPositiveEndState_iff.mpr
    ⟨before, trie.mem_of_append member, kept.imp_right .inr,
      positive_propagated.mpr ⟨⟨more, positive⟩, not_root⟩⟩)

/-- Only files in a directory are matched, and the path is not in it. -/
theorem isMatch_eq_false_of_other_directory : ∃ nfa,
    newNFAFromPatterns [['a', '/', '*']] [] = .ok nfa ∧
      ((({} : Matcher).initializeWith nfa).writeRunes ([0x62] ++ [0x2f, 0x61])).isMatch = false :=
  ⟨_, rfl, isMatch_eq_false_of_stopped (.inl ⟨[['a', '/', '*']], [], rfl⟩) {} (cons_ne_nil _ _)
    (by decide) _⟩

theorem exists_mem_language (tokens : List Token) : ∃ word, word ∈ language tokens := by
  induction tokens with
  | nil => exact ⟨[], rfl⟩
  | cons token tokens ih =>
    obtain ⟨rest, matched⟩ := ih
    obtain ⟨word, consumed⟩ : ∃ word, word ∈ token.language := by
      cases token
      exacts [⟨[_], rfl⟩, ⟨[], nil_mem_language_star⟩, ⟨[], nil_mem_language_starStarSlash⟩]
    exact ⟨word ++ rest, Language.append_mem_mul consumed matched⟩

/-- If `WriteRune` returns that a match is possible, a pattern to include matches a longer path. -/
theorem exists_matches_of_hasPositiveEndState {includes excludes : List (List Char)} {nfa : NFA}
    (compiled : newNFAFromPatterns includes excludes = .ok nfa) (m : Matcher)
    (possible : ((m.initializeWith nfa).writeRunes path).hasPositiveEndState = true) :
    ∃ rest, ∃ pattern ∈ includes, Matches pattern (path ++ rest) := by
  obtain ⟨valid, labels, children, trie, -⟩ :=
    (newNFAFromPatterns_spec includes excludes).of_eq_ok compiled
  obtain ⟨tokens, -, kept, positive⟩ :=
    (tracks_writeRunes trie m path).hasPositiveEndState_iff.mp possible
  obtain ⟨⟨more, ended⟩, -⟩ := positive_propagated.mp positive
  have included : tokens ++ more ∈ endedTokens includes := by
    rw [patternMarks, endState_setEndStates, endState_setEndStates] at ended
    split at ended
    · cases ended
    · split at ended
      · assumption
      · cases ended
  obtain ⟨started, matched⟩ : ∃ started, path ++ started ∈ language tokens := by
    rcases kept with matched | ⟨-, matched⟩ | ⟨before, rfl, earlier, ⟨later, rfl⟩, matched⟩
    · exact ⟨[], by rwa [append_nil]⟩
    · exact ⟨[], by rwa [append_nil]⟩
    · refine ⟨[slash], mem_language_concat.mpr ⟨earlier, matched, later ++ [slash], .inr ?_, ?_⟩⟩
      · exact getLast?_concat
      · rw [append_assoc]
  obtain ⟨word, ends⟩ := exists_mem_language more
  refine ⟨started ++ word, (exists_matches_iff (forall_mem_append.mp valid).1 _).mpr
    ⟨_, included, ?_⟩⟩
  rw [language_append, ← append_assoc]
  exact Language.append_mem_mul matched ends

theorem exists_matches_of_directory : ∃ rest, ∃ pattern ∈ [['a', '/', '*']],
    Matches pattern ([0x61] ++ rest) := by
  have compiled : newNFAFromPatterns [['a', '/', '*']] [] = .ok _ := rfl
  exact exists_matches_of_hasPositiveEndState compiled {} (by decide)

end Bonanza.Glob
