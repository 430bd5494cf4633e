import Bonanza.Glob.NFA

/-! # Paths that patterns match

What a pattern matches is defined on its text, as a language of sequences of runes
(`Matches`). A pattern that is compiled becomes a list of tokens, which are the edges of
the automaton. `mem_language_append_rune` says how the lists of tokens that match a path
follow from those that match all of the path but its last rune: some token consumes the
rune, and wildcards after it match the empty string.
-/

namespace Bonanza.Glob

open List

/-- The edges of the automaton. -/
inductive Token where
  | rune (r : Int)
  | star
  | starStarSlash
  deriving DecidableEq

open Token

instance : LawfulBEq (List Token) := inferInstance

/-- What a token matches. -/
def Token.language : Token → Language Int
  | .rune r => {[r]}
  | .star => {word | ∀ r ∈ word, r ≠ slash}
  | .starStarSlash => {word | word = [] ∨ word.getLast? = some slash}

/-- What a list of tokens matches. -/
def language (tokens : List Token) : Language Int := (tokens.map Token.language).prod

/-- What the rest of a pattern matches, possibly at the start of a component. -/
def text : Bool → List Char → Language Int
  | true, '*' :: '*' :: '/' :: rest => starStarSlash.language * text true rest
  | true, ['*', '*'] => starStarSlash.language * star.language
  | _, '*' :: rest => star.language * text false rest
  | _, c :: rest => (rune c.toNat).language * text (c = '/') rest
  | _, [] => 1

/-- Whether a pattern matches a path. If the pattern is a directory followed by `/**`, it also
matches what the directory matches. -/
inductive Matches : List Char → List Int → Prop where
  | text {pattern : List Char} {path : List Int} (matched : path ∈ text true pattern) :
      Matches pattern path
  | directory {directory : List Char} {path : List Int} (matched : Matches directory path) :
      Matches (directory ++ ['/', '*', '*']) path

theorem language_append (first second : List Token) :
    language (first ++ second) = language first * language second := by
  rw [language, map_append, prod_append]
  rfl

theorem language_singleton (token : Token) : language [token] = token.language := by
  rw [language, map_singleton, prod_singleton]

variable {tokens : List Token} {path : List Int} {token : Token} {r : Int}

theorem mem_language_concat :
    path ∈ language (tokens ++ [token]) ↔
      ∃ before ∈ language tokens, ∃ word ∈ token.language, before ++ word = path := by
  rw [language_append, language_singleton, Language.mem_mul]

/-! ## Wildcards -/

/-- Which token may come after another one. -/
def Token.Follows : Token → Token → Prop
  | .star, .rune _ => True
  | .star, _ => False
  | .starStarSlash, .starStarSlash => False
  | _, _ => True

/-- Lists of tokens in which `*` is not followed by a wildcard, and `**/` not by itself. -/
def Proper (tokens : List Token) : Prop := tokens.IsChain Follows

theorem proper_concat :
    Proper (tokens ++ [token]) ↔ Proper tokens ∧ ∀ last ∈ tokens.getLast?, last.Follows token := by
  simp [Proper, isChain_append]

theorem rune_of_follows_starStarSlash
    (follows : ∀ last ∈ tokens.getLast?, last.Follows .starStarSlash) :
    ∀ last ∈ tokens.getLast?, ∃ r, last = .rune r := by
  intro last member
  cases last with
  | rune r => exact ⟨r, rfl⟩
  | star => cases follows _ member
  | starStarSlash => cases follows _ member

/-- The lists of wildcards that a matcher follows without consuming runes. -/
inductive Expansion : List Token → Prop where
  | nil : Expansion []
  | star : Expansion [.star]
  | starStarSlash : Expansion [.starStarSlash]
  | starStarSlashStar : Expansion [.starStarSlash, .star]

theorem nil_mem_language_star : ([] : List Int) ∈ star.language := nofun

theorem nil_mem_language_starStarSlash : ([] : List Int) ∈ starStarSlash.language := .inl rfl

theorem Expansion.mem_language_append {expansion : List Token} (expands : Expansion expansion)
    (matched : path ∈ language tokens) :
    path ∈ language (tokens ++ expansion) := by
  have star : ∀ {tokens : List Token}, path ∈ language tokens →
      path ∈ language (tokens ++ [.star]) := fun matched =>
    mem_language_concat.mpr ⟨path, matched, [], nil_mem_language_star, append_nil path⟩
  have starStarSlash : path ∈ language (tokens ++ [.starStarSlash]) :=
    mem_language_concat.mpr ⟨path, matched, [], nil_mem_language_starStarSlash, append_nil path⟩
  cases expands with
  | nil => rwa [append_nil]
  | star => exact star matched
  | starStarSlash => exact starStarSlash
  | starStarSlashStar =>
    rw [← singleton_append, ← append_assoc]
    exact star starStarSlash

/-- There are no tokens, or the last one matches a string that is not empty. -/
inductive Consumed : List Token → List Int → Prop where
  | nil : Consumed [] []
  | concat {tokens : List Token} {token : Token} {before word : List Int}
      (matched : before ∈ language tokens) (consumed : word ∈ token.language)
      (nonempty : word ≠ []) : Consumed (tokens ++ [token]) (before ++ word)

theorem consumed_or_mem (matched : path ∈ language (tokens ++ [token])) :
    Consumed (tokens ++ [token]) path ∨ (∀ r, token ≠ .rune r) ∧ path ∈ language tokens := by
  obtain ⟨before, matched_before, word, consumed, rfl⟩ := mem_language_concat.mp matched
  by_cases empty : word = []
  · subst empty
    refine .inr ⟨?_, by rwa [append_nil]⟩
    rintro r rfl
    cases consumed
  · exact .inl (.concat matched_before consumed empty)

theorem consumed_of_rune (matched : path ∈ language tokens)
    (ends : ∀ last ∈ tokens.getLast?, ∃ r, last = .rune r) : Consumed tokens path := by
  rcases eq_nil_or_concat' tokens with rfl | ⟨before, token, rfl⟩
  · cases matched
    exact .nil
  · rcases consumed_or_mem matched with consumed | ⟨wildcard, -⟩
    · exact consumed
    · obtain ⟨r, same⟩ := ends token (by rw [getLast?_concat]; rfl)
      cases wildcard r same

/-- A path is matched by tokens whose last one is not empty, followed by wildcards that are. -/
theorem exists_consumed (proper : Proper tokens) (matched : path ∈ language tokens) :
    ∃ consumed expansion, tokens = consumed ++ expansion ∧ Expansion expansion ∧
      Consumed consumed path := by
  rcases eq_nil_or_concat' tokens with rfl | ⟨before, token, rfl⟩
  · cases matched
    exact ⟨[], [], rfl, .nil, .nil⟩
  obtain ⟨proper_before, follows⟩ := proper_concat.mp proper
  rcases consumed_or_mem matched with consumed | ⟨wildcard, matched_before⟩
  · exact ⟨_, [], (append_nil _).symm, .nil, consumed⟩
  cases token with
  | rune r => cases wildcard r rfl
  | starStarSlash =>
    exact ⟨before, _, rfl, .starStarSlash,
      consumed_of_rune matched_before (rune_of_follows_starStarSlash follows)⟩
  | star =>
    -- The wildcard may come after another one that is empty as well.
    rcases eq_nil_or_concat' before with rfl | ⟨earlier, previous, rfl⟩
    · cases matched_before
      exact ⟨[], _, rfl, .star, .nil⟩
    rcases consumed_or_mem matched_before with consumed | ⟨wildcard, matched_earlier⟩
    · exact ⟨_, _, rfl, .star, consumed⟩
    have previous_follows := follows previous (by rw [getLast?_concat]; rfl)
    cases previous with
    | rune r => cases wildcard r rfl
    | star => cases previous_follows
    | starStarSlash =>
      have earlier_follows := (proper_concat.mp proper_before).2
      exact ⟨earlier, _, append_assoc .., .starStarSlashStar,
        consumed_of_rune matched_earlier (rune_of_follows_starStarSlash earlier_follows)⟩

theorem nil_mem_language (proper : Proper tokens) : [] ∈ language tokens ↔ Expansion tokens := by
  constructor
  · intro matched
    obtain ⟨consumed, expansion, rfl, expands, empty⟩ := exists_consumed proper matched
    generalize path_eq : ([] : List Int) = path at empty
    cases empty with
    | nil => exact expands
    | concat _ _ nonempty => cases nonempty (append_eq_nil_iff.mp path_eq.symm).2
  · intro expands
    have matched : [] ∈ language [] := rfl
    exact expands.mem_language_append matched

/-! ## One more rune -/

/-- The last token of a list consumes a rune. -/
inductive Advances : List Token → List Int → Int → Prop where
  | rune {tokens : List Token} {path : List Int} {r : Int} (matched : path ∈ language tokens) :
      Advances (tokens ++ [.rune r]) path r
  | star {tokens : List Token} {path : List Int} {r : Int} (inside : r ≠ slash)
      (matched : path ∈ language (tokens ++ [.star])) : Advances (tokens ++ [.star]) path r
  | starStarSlash {tokens : List Token} {path before : List Int} (earlier : before <+: path)
      (matched : before ∈ language tokens) : Advances (tokens ++ [.starStarSlash]) path slash

theorem Advances.mem_language (advances : Advances tokens path r) :
    path ++ [r] ∈ language tokens := by
  cases advances with
  | rune matched => exact mem_language_concat.mpr ⟨path, matched, [r], rfl, rfl⟩
  | star inside matched =>
    obtain ⟨before, matched_before, word, free, rfl⟩ := mem_language_concat.mp matched
    refine mem_language_concat.mpr ⟨before, matched_before, word ++ [r], ?_, by simp⟩
    intro other member
    rcases mem_append.mp member with old | new
    · exact free other old
    · cases mem_singleton.mp new
      exact inside
  | starStarSlash earlier matched =>
    obtain ⟨rest, rfl⟩ := earlier
    exact mem_language_concat.mpr ⟨_, matched, rest ++ [slash], .inr getLast?_concat, by simp⟩

theorem advances_star_iff :
    Advances (tokens ++ [.star]) path r ↔ r ≠ slash ∧ path ∈ language (tokens ++ [.star]) := by
  constructor
  · intro advances
    generalize same : tokens ++ [.star] = others at advances
    cases advances with
    | rune => cases (append_inj' same rfl).2
    | star inside matched => exact ⟨inside, matched⟩
    | starStarSlash => cases (append_inj' same rfl).2
  · rintro ⟨inside, matched⟩
    exact .star inside matched

theorem Consumed.advances (consumed : Consumed tokens (path ++ [r])) : Advances tokens path r := by
  generalize path_eq : path ++ [r] = longer at consumed
  cases consumed with
  | nil => cases append_ne_nil_of_right_ne_nil path (cons_ne_nil r []) path_eq
  | @concat tokens token before word matched consumed nonempty =>
    obtain empty | ⟨rest, last, rfl⟩ := eq_nil_or_concat' word
    · cases nonempty empty
    rw [← append_assoc] at path_eq
    obtain ⟨rfl, same⟩ := append_inj' path_eq rfl
    cases same
    cases token with
    | rune other =>
      have word_eq : rest ++ [r] = [] ++ [other] := consumed
      obtain ⟨rfl, same⟩ := append_inj' word_eq rfl
      cases same
      rw [append_nil]
      exact .rune matched
    | star =>
      refine .star (consumed r mem_concat_self) (mem_language_concat.mpr
        ⟨before, matched, rest, fun other member => ?_, rfl⟩)
      exact consumed other (mem_append_left _ member)
    | starStarSlash =>
      rcases consumed with empty | last
      · cases nonempty empty
      · rw [getLast?_concat] at last
        cases last
        exact .starStarSlash (prefix_append before rest) matched

/-- A path with one more rune is matched if some token consumes the rune, and the rest match the
empty string. -/
theorem mem_language_append_rune (proper : Proper tokens) :
    path ++ [r] ∈ language tokens ↔
      ∃ consumed expansion, tokens = consumed ++ expansion ∧ Expansion expansion ∧
        Advances consumed path r := by
  constructor
  · intro matched
    obtain ⟨consumed, expansion, split, expands, nonempty⟩ := exists_consumed proper matched
    exact ⟨consumed, expansion, split, expands, nonempty.advances⟩
  · rintro ⟨consumed, expansion, rfl, expands, advances⟩
    exact expands.mem_language_append advances.mem_language

end Bonanza.Glob
