import Bonanza.Glob.Trie

/-! # Compiling patterns

`addPattern` turns the text of a pattern into tokens, and follows their edges. `tokenize` only does
the former. `Parsing` relates the variables of its loop to the text read: the language of the whole
text is that of the tokens, followed by that of what has not been turned into tokens yet.

The labels that `addPattern` adds to a tree are the initial parts of the tokens of the pattern, and
it only fails if there are none or too many of them (`addPattern_spec`).
-/

namespace Bonanza.Glob

open List Function Fallible Token

/-! ## Languages of texts -/

theorem text_nil (start : Bool) : text start [] = 1 := by
  cases start <;> rfl

variable {start : Bool} {c : Char} {rest : List Char}

theorem text_cons (plain : c ≠ '*') :
    text start (c :: rest) = (rune c.toNat).language * text (c = '/') rest := by
  rw [text]
  all_goals simp [plain]

/-- A star that stands alone matches within a component. -/
theorem text_star (single : rest.head? ≠ some '*') :
    text start ('*' :: rest) = star.language * text false rest := by
  rw [text]
  · rintro others - rfl
    exact single rfl
  · rintro - rfl
    exact single rfl

/-- Two stars and a slash match any number of directories. -/
theorem text_starStarSlash (rest : List Char) :
    text true ('*' :: '*' :: '/' :: rest) = starStarSlash.language * text true rest := by
  rw [text]

theorem text_starStar : text true ['*', '*'] = starStarSlash.language * star.language := by
  rw [text]

variable {pattern : List Char} {path : List Int}

/-- Patterns that end with `/**` also match the directory. -/
theorem matches_iff :
    Matches pattern path ↔ path ∈ text true pattern ∨
      ∃ directory, pattern = directory ++ ['/', '*', '*'] ∧ Matches directory path := by
  constructor
  · intro matched
    cases matched with
    | text matched => exact .inl matched
    | directory matched => exact .inr ⟨_, rfl, matched⟩
  · rintro (matched | ⟨directory, rfl, matched⟩)
    · exact .text matched
    · exact .directory matched

theorem matches_iff_of_not_suffix (plain : ¬ ['*', '*'] <:+ pattern) :
    Matches pattern path ↔ path ∈ text true pattern := by
  rw [matches_iff, or_iff_left]
  rintro ⟨directory, rfl, -⟩
  exact plain ⟨directory ++ ['/'], append_assoc ..⟩

theorem matches_directory {directory : List Char} (plain : ¬ ['*', '*'] <:+ directory) :
    Matches (directory ++ ['/', '*', '*']) path ↔
      path ∈ text true (directory ++ ['/', '*', '*']) ∨ path ∈ text true directory := by
  rw [matches_iff, ← matches_iff_of_not_suffix plain]
  refine or_congr_right ⟨?_, fun matched => ⟨directory, rfl, matched⟩⟩
  rintro ⟨others, same, matched⟩
  rwa [append_inj_left' same rfl]

/-! ## End states -/

/-- The marks of labels after setting the end states of some of them. -/
def setEndStates (marks : List Token → Mark) (ended : List (List Token)) (endState : EndState)
    (tokens : List Token) : Mark :=
  if tokens ∈ ended then { marks tokens with endState } else marks tokens

variable (marks : List Token → Mark)

include marks

theorem setEndStates_cons (ended : List (List Token)) (endState : EndState) (tokens : List Token) :
    update (setEndStates marks ended endState) tokens
        { setEndStates marks ended endState tokens with endState } =
      setEndStates marks (tokens :: ended) endState := by
  funext others
  by_cases same : others = tokens
  · subst same
    simp only [update_self, setEndStates, mem_cons_self, if_true]
    split <;> rfl
  · simp [setEndStates, same]

theorem positive_setEndStates (ended : List (List Token)) (endState : EndState)
    (tokens : List Token) :
    (setEndStates marks ended endState tokens).positive = (marks tokens).positive := by
  rw [setEndStates]
  split <;> rfl

/-- Only paths that are listed get an end state. -/
theorem endState_setEndStates (ended : List (List Token)) (endState : EndState)
    (tokens : List Token) :
    (setEndStates marks ended endState tokens).endState =
      if tokens ∈ ended then endState else (marks tokens).endState := by
  rw [setEndStates]
  split <;> rfl

theorem setEndStates_append (first second : List (List Token)) (endState : EndState) :
    setEndStates (setEndStates marks first endState) second endState =
      setEndStates marks (first ++ second) endState := by
  funext tokens
  by_cases new : tokens ∈ second
  · by_cases old : tokens ∈ first
    · simp [setEndStates, old]
    · simp [setEndStates, old]
  · simp [setEndStates, new]

omit marks

/-! ## Tokens of patterns -/

/-- The variables of `addPattern`, where states are given by their labels. -/
structure Tokenizer where
  tokens : List Token := []
  previousDirectory : List Token := []
  gotRunes : Bool := false
  gotStarStarSlash : Bool := false
  gotStars : Nat := 0

variable {r : Char}

namespace Tokenizer

variable (q : Tokenizer)

/-- The tokens, including one for a star read. -/
def flushed : List Token := if q.gotStars = 1 then q.tokens ++ [.star] else q.tokens

/-- The body of the loop in `addPattern`, which fails if the pattern is invalid. -/
def writeRune (r : Char) : Option Tokenizer :=
  if r = '*' then
    if q.gotStars = 1 ∧ q.gotRunes then none
    else if q.gotStars = 2 then none
    else some { q with gotStars := q.gotStars + 1 }
  else if r = '/' then
    if q.gotStars = 2 then
      if q.gotStarStarSlash then none
      else some { q with
        tokens := q.tokens ++ [.starStarSlash]
        gotStarStarSlash := true
        gotRunes := false
        gotStars := 0 }
    else if q.gotStars = 0 ∧ q.gotRunes = false then none
    else some { tokens := q.flushed ++ [.rune '/'.toNat], previousDirectory := q.flushed }
  else if q.gotStars = 2 then none
  else some { q with
    tokens := q.flushed ++ [.rune r.toNat]
    gotRunes := true
    gotStars := 0 }

/-- The labels of the states that become end states. -/
def finish : Option (List (List Token)) :=
  if q.gotStars = 2 then
    if q.gotStarStarSlash then none
    else some ((q.tokens ++ [.starStarSlash] ++ [.star]) ::
      if q.previousDirectory = [] then [] else [q.previousDirectory])
  else if q.gotStars = 0 ∧ q.gotRunes = false then none
  else some [q.flushed]

/-- The loop in `addPattern`. -/
def parse : Tokenizer → List Char → Option (List (List Token))
  | q, [] => q.finish
  | q, r :: rest => (q.writeRune r).bind (·.parse rest)

variable {q} {q' : Tokenizer}

theorem prefix_flushed : q.tokens <+: q.flushed := by
  rw [flushed]
  split
  · exact prefix_append ..
  · exact prefix_rfl

theorem prefix_of_writeRune (written : q.writeRune r = some q') : q.tokens <+: q'.tokens := by
  rw [writeRune] at written
  split_ifs at written
  all_goals cases written
  · exact prefix_rfl
  · exact prefix_append ..
  · exact prefix_flushed.trans (prefix_append ..)
  · exact prefix_flushed.trans (prefix_append ..)

/-- What has been read is part of a path that ends. -/
theorem prefix_of_parse {ended : List (List Token)} (parsed : q.parse rest = some ended) :
    ∃ tokens ∈ ended, q.tokens <+: tokens := by
  induction rest generalizing q with
  | nil =>
    rw [parse, finish] at parsed
    split_ifs at parsed
    all_goals cases parsed
    all_goals refine ⟨_, mem_cons_self, ?_⟩
    · rw [append_assoc]
      exact prefix_append ..
    · rw [append_assoc]
      exact prefix_append ..
    · exact prefix_flushed
  | cons r rest ih =>
    obtain ⟨q', written, parsed⟩ := Option.bind_eq_some_iff.mp parsed
    obtain ⟨tokens, member, longer⟩ := ih parsed
    exact ⟨tokens, member, (prefix_of_writeRune written).trans longer⟩

end Tokenizer

open Tokenizer

/-! ## Languages of tokens -/

/-- Characters other than wildcards and separators have become tokens, of which all runes are
characters. -/
structure Spelled (pattern : List Char) (tokens : List Token) : Prop where
  rune_mem : ∀ c ∈ pattern, c ≠ '*' → c ≠ '/' → .rune c.toNat ∈ tokens
  exists_char : ∀ r : Int, .rune r ∈ tokens → ∃ c ∈ pattern, r = c.toNat

variable {tokens others : List Token}

/-- Spellings can be concatenated. -/
theorem Spelled.append {more : List Char} (first : Spelled pattern tokens)
    (second : Spelled more others) :
    Spelled (pattern ++ more) (tokens ++ others) where
  rune_mem := by
    intro c member plain inside
    rcases mem_append.mp member with earlier | later
    · exact mem_append_left _ (first.rune_mem c earlier plain inside)
    · exact mem_append_right _ (second.rune_mem c later plain inside)
  exists_char := by
    intro r member
    rcases mem_append.mp member with earlier | later
    · obtain ⟨c, inside, same⟩ := first.exists_char r earlier
      exact ⟨c, mem_append_left _ inside, same⟩
    · obtain ⟨c, inside, same⟩ := second.exists_char r later
      exact ⟨c, mem_append_right _ inside, same⟩

theorem spelled_wildcards {pattern : List Char} {tokens : List Token}
    (chars : ∀ c ∈ pattern, c = '*' ∨ c = '/') (wildcards : ∀ r : Int, .rune r ∉ tokens) :
    Spelled pattern tokens :=
  ⟨fun c member plain inside => absurd (chars c member) (not_or.mpr ⟨plain, inside⟩),
    fun r member => absurd member (wildcards r)⟩

theorem spelled_rune (c : Char) : Spelled [c] [.rune c.toNat] := ⟨by simp, by simp⟩

theorem proper_concat_rune (proper : Proper tokens) (r : Int) : Proper (tokens ++ [.rune r]) :=
  proper_concat.mpr ⟨proper, fun last _ => by cases last <;> exact trivial⟩

variable {token : Token}

theorem proper_concat_of_follows {last : Token} (proper : Proper (tokens ++ [last]))
    (follows : last.Follows token) :
    Proper (tokens ++ [last] ++ [token]) := by
  refine proper_concat.mpr ⟨proper, fun other member => ?_⟩
  rw [getLast?_concat] at member
  exact Option.some.inj member ▸ follows

namespace Tokenizer

/-- What the variables of the loop of `addPattern` say about the part read. -/
structure Parsing (q : Tokenizer) (done : List Char) : Prop where
  text_eq : ∀ rest, text true (done ++ rest) =
    language q.tokens * text (!q.gotRunes) (List.replicate q.gotStars '*' ++ rest)
  spelled : Spelled done q.tokens
  gotStars_le : q.gotStars ≤ 2
  gotRunes_of_two : q.gotStars = 2 → q.gotRunes = false
  trailing : ∃ front, done = front ++ List.replicate q.gotStars '*' ∧ front.getLast? ≠ some '*'
  proper_star : Proper (q.tokens ++ [.star])
  proper_starStarSlash : q.gotStarStarSlash = false → Proper (q.tokens ++ [.starStarSlash])
  tokens_ne_nil : q.gotRunes = true → q.tokens ≠ []
  directory_le : q.previousDirectory <+: q.tokens
  directory : q.gotRunes = false → q.gotStarStarSlash = false →
    q.previousDirectory = [] ∧ done = List.replicate q.gotStars '*' ∨
      ∃ directory, q.previousDirectory ≠ [] ∧
        done = directory ++ '/' :: List.replicate q.gotStars '*' ∧
        text true directory = language q.previousDirectory ∧ ¬ ['*', '*'] <:+ directory

/-- Tokens of the part of a pattern read, where no stars are left. -/
structure Flushed (done : List Char) (tokens : List Token) : Prop where
  text_eq : ∀ rest, rest.head? ≠ some '*' →
    ∃ start, text true (done ++ rest) = language tokens * text start rest
  spelled : Spelled done tokens
  proper : Proper tokens

variable {done : List Char}

theorem Flushed.text_eq_concat {done : List Char} {tokens : List Token}
    (flushed : Flushed done tokens) {c : Char} (plain : c ≠ '*') (rest : List Char) :
    text true (done ++ [c] ++ rest) =
      language (tokens ++ [.rune c.toNat]) * text (c = '/') rest := by
  have single : (c :: rest).head? ≠ some '*' := fun same => plain (Option.some.inj same)
  obtain ⟨start, text_eq⟩ := flushed.text_eq (c :: rest) single
  rw [append_assoc, singleton_append, text_eq, text_cons plain, ← mul_assoc,
    language_append, language_singleton]

/-- Tokens accept what the text accepts. -/
theorem Flushed.text_eq_language (flushed : Flushed done tokens) :
    text true done = language tokens := by
  obtain ⟨start, text_eq⟩ := flushed.text_eq [] (by rintro ⟨⟩)
  rwa [append_nil, text_nil, mul_one] at text_eq

theorem Flushed.parsing_concat (flushed : Flushed done tokens) (plain : c ≠ '*')
    {directory : List Token} (directory_le : directory <+: tokens)
    {gotRunes gotStarStarSlash : Bool} (inside : gotRunes = !decide (c = '/'))
    (previous : gotRunes = false → directory = tokens ∧ tokens ≠ [] ∧ ¬ ['*', '*'] <:+ done) :
    Parsing ⟨tokens ++ [.rune c.toNat], directory, gotRunes, gotStarStarSlash, 0⟩
      (done ++ [c]) where
  text_eq := by
    intro rest
    rw [flushed.text_eq_concat plain, inside, Bool.not_not]
    rfl
  spelled := flushed.spelled.append (spelled_rune c)
  gotStars_le := Nat.zero_le 2
  gotRunes_of_two := by rintro ⟨⟩
  trailing := ⟨done ++ [c], (append_nil _).symm, by simpa using plain⟩
  proper_star := proper_concat_of_follows (proper_concat_rune flushed.proper _) trivial
  proper_starStarSlash := fun _ =>
    proper_concat_of_follows (proper_concat_rune flushed.proper _) trivial
  tokens_ne_nil := fun _ => append_ne_nil_of_right_ne_nil _ (cons_ne_nil _ _)
  directory_le := directory_le.trans (prefix_append ..)
  directory := by
    rintro rfl -
    obtain ⟨rfl, nonempty, few⟩ := previous rfl
    have slash : c = '/' := by simpa using inside
    exact .inr ⟨done, nonempty, by rw [slash]; rfl, flushed.text_eq_language, few⟩

theorem parsing_nil : Parsing {} [] where
  text_eq := fun rest => (one_mul _).symm
  spelled := spelled_wildcards (forall_mem_nil _) fun _ => not_mem_nil
  gotStars_le := Nat.zero_le 2
  gotRunes_of_two := by rintro ⟨⟩
  trailing := ⟨[], rfl, by rintro ⟨⟩⟩
  proper_star := .singleton _
  proper_starStarSlash := fun _ => .singleton _
  tokens_ne_nil := by rintro ⟨⟩
  directory_le := prefix_rfl
  directory := fun _ _ => .inl ⟨rfl, rfl⟩

variable {q : Tokenizer} {done : List Char} (parsing : q.Parsing done)

include parsing

variable (few : q.gotStars ≠ 2)

include few

theorem Parsing.flushed_cases :
    q.gotStars = 0 ∧ q.flushed = q.tokens ∨ q.gotStars = 1 ∧ q.flushed = q.tokens ++ [.star] := by
  have le := parsing.gotStars_le
  by_cases one : q.gotStars = 1
  · exact .inr ⟨one, if_pos one⟩
  · exact .inl ⟨by omega, if_neg one⟩

/-- Stars that have been seen can be completed. -/
theorem Parsing.flushed : Flushed done q.flushed := by
  rcases parsing.flushed_cases few with ⟨none, same⟩ | ⟨one, same⟩
  · rw [same]
    refine ⟨fun rest _ => ?_, parsing.spelled, (proper_concat.mp parsing.proper_star).1⟩
    have text_eq := parsing.text_eq rest
    rw [none] at text_eq
    exact ⟨_, text_eq⟩
  · rw [same]
    refine ⟨fun rest single => ?_, ?_, parsing.proper_star⟩
    · have text_eq := parsing.text_eq rest
      rw [one] at text_eq
      refine ⟨false, text_eq.trans ?_⟩
      change _ * text _ ('*' :: rest) = _
      rw [text_star single, ← mul_assoc, language_append, language_singleton]
    · have spelled := parsing.spelled.append (@spelled_wildcards [] [.star] (by simp) (by simp))
      rwa [append_nil] at spelled

theorem Parsing.flushed_ne_nil (nonempty : ¬(q.gotStars = 0 ∧ q.gotRunes = false)) :
    q.flushed ≠ [] := by
  rcases parsing.flushed_cases few with ⟨none, same⟩ | ⟨-, same⟩
  · rw [same]
    exact parsing.tokens_ne_nil (Bool.not_eq_false _ ▸ fun empty => nonempty ⟨none, empty⟩)
  · rw [same]
    exact append_ne_nil_of_right_ne_nil _ (cons_ne_nil _ _)

/-- The text read so far does not end with two stars. -/
theorem Parsing.not_suffix : ¬ ['*', '*'] <:+ done := by
  obtain ⟨front, rfl, last⟩ := parsing.trailing
  rintro ⟨before, same⟩
  rcases parsing.flushed_cases few with ⟨none, -⟩ | ⟨one, -⟩
  · rw [none, replicate_zero, append_nil] at same
    rw [← same, getLast?_append] at last
    exact last rfl
  · have split : (before ++ ['*']) ++ ['*'] = front ++ ['*'] := by
      rw [one] at same
      rwa [append_assoc]
    rw [← (append_inj' split rfl).1, getLast?_concat] at last
    exact last rfl

omit few

/-- Reading a star. -/
theorem Parsing.addStar (inside : ¬ (q.gotStars = 1 ∧ q.gotRunes = true))
    (few : q.gotStars ≠ 2) : Parsing { q with gotStars := q.gotStars + 1 } (done ++ ['*']) where
  text_eq := by
    intro rest
    rw [append_assoc, parsing.text_eq, replicate_succ', append_assoc]
  spelled := by
    have spelled := parsing.spelled.append (@spelled_wildcards ['*'] [] (by simp) (by simp))
    rwa [append_nil] at spelled
  gotStars_le := by
    have le := parsing.gotStars_le
    change q.gotStars + 1 ≤ 2
    omega
  gotRunes_of_two := by
    intro two
    have one : q.gotStars = 1 := Nat.succ.inj two
    exact Bool.eq_false_iff.mpr fun runes => inside ⟨one, runes⟩
  trailing := by
    obtain ⟨front, rfl, last⟩ := parsing.trailing
    exact ⟨front, by rw [replicate_succ', append_assoc], last⟩
  proper_star := parsing.proper_star
  proper_starStarSlash := parsing.proper_starStarSlash
  tokens_ne_nil := parsing.tokens_ne_nil
  directory_le := parsing.directory_le
  directory := by
    intro runes starStarSlash
    rw [replicate_succ']
    rcases parsing.directory runes starStarSlash with ⟨root, rfl⟩ |
      ⟨directory, nonempty, rfl, text_eq, plain⟩
    · exact .inl ⟨root, rfl⟩
    · exact .inr ⟨directory, nonempty, by rw [append_assoc]; rfl, text_eq, plain⟩

/-- Reading the slash after two stars. -/
theorem Parsing.addStarStarSlash (two_stars : q.gotStars = 2)
    (fresh : q.gotStarStarSlash = false) :
    Parsing { q with
      tokens := q.tokens ++ [.starStarSlash]
      gotStarStarSlash := true
      gotRunes := false
      gotStars := 0 } (done ++ ['/']) where
  text_eq := by
    intro rest
    have text_eq := parsing.text_eq ('/' :: rest)
    rw [two_stars, parsing.gotRunes_of_two two_stars] at text_eq
    rw [append_assoc]
    refine text_eq.trans ?_
    change _ * text true ('*' :: '*' :: '/' :: rest) = _ * text true rest
    rw [text_starStarSlash, ← mul_assoc, language_append, language_singleton]
  spelled := parsing.spelled.append (spelled_wildcards (by simp) (by simp))
  gotStars_le := Nat.zero_le 2
  gotRunes_of_two := by rintro ⟨⟩
  trailing := ⟨done ++ ['/'], (append_nil _).symm, by simp⟩
  proper_star := proper_concat_of_follows (parsing.proper_starStarSlash fresh) trivial
  proper_starStarSlash := by rintro ⟨⟩
  tokens_ne_nil := by rintro ⟨⟩
  directory_le := parsing.directory_le.trans (prefix_append ..)
  directory := by rintro _ ⟨⟩

/-- Reading a rune keeps the invariant. -/
theorem Parsing.writeRune {q' : Tokenizer} (written : q.writeRune c = some q') :
    q'.Parsing (done ++ [c]) := by
  rw [Tokenizer.writeRune] at written
  split at written
  · next star =>
      subst star
      split_ifs at written with inside few
      cases written
      exact parsing.addStar inside few
  · next plain =>
      split at written
      · next slash =>
          subst slash
          split_ifs at written with two_stars again empty
          · cases written
            exact parsing.addStarStarSlash two_stars (Bool.eq_false_iff.mpr again)
          · cases written
            exact (parsing.flushed two_stars).parsing_concat plain prefix_rfl rfl fun _ =>
              ⟨rfl, parsing.flushed_ne_nil two_stars empty, parsing.not_suffix two_stars⟩
      · next inside =>
          split_ifs at written with two_stars
          cases written
          refine (parsing.flushed two_stars).parsing_concat plain
            (parsing.directory_le.trans prefix_flushed) (by simp [inside]) ?_
          rintro ⟨⟩

/-- Which tokens are read from a pattern. -/
structure Tokenizes (pattern : List Char) (ended : List (List Token)) : Prop where
  spelled : ∃ tokens ∈ ended, Spelled pattern tokens ∧ ∀ others ∈ ended, others <+: tokens
  matches_iff : ∀ path, Matches pattern path ↔ ∃ tokens ∈ ended, path ∈ language tokens

/-- At the end of the text, the tokens are those of the pattern. -/
theorem Parsing.finish {ended : List (List Token)} (finished : q.finish = some ended) :
    Tokenizes done ended := by
  rw [Tokenizer.finish] at finished
  split at finished
  · next two_stars =>
      split at finished
      · cases finished
      rename_i again
      cases finished
      have fresh := Bool.eq_false_iff.mpr again
      have runes := parsing.gotRunes_of_two two_stars
      have text_eq := parsing.text_eq []
      rw [append_nil, append_nil, two_stars, runes] at text_eq
      have tokens_eq : text true done = language (q.tokens ++ [.starStarSlash] ++ [.star]) := by
        rw [text_eq, language_append, language_append, language_singleton,
          language_singleton, mul_assoc]
        exact congrArg _ text_starStar
      have spelled : Spelled done (q.tokens ++ [.starStarSlash] ++ [.star]) := by
        have spelled := parsing.spelled.append
          (@spelled_wildcards [] [.starStarSlash, .star] (by simp) (by simp))
        rwa [append_nil, append_cons] at spelled
      refine ⟨⟨_, mem_cons_self, spelled, ?_⟩, fun path => ?_⟩
      · refine forall_mem_cons.mpr ⟨prefix_rfl, fun others member => ?_⟩
        split at member
        · cases member
        · cases mem_singleton.mp member
          rw [append_assoc]
          exact parsing.directory_le.trans (prefix_append ..)
      · rcases parsing.directory runes fresh with ⟨root, done_eq⟩ |
          ⟨directory, nonempty, done_eq, directory_eq, plain⟩
        · rw [root, if_pos rfl, matches_iff, tokens_eq]
          have short : ¬∃ directory, done = directory ++ ['/', '*', '*'] ∧
              Matches directory path := by
            rintro ⟨directory, same, -⟩
            have longer := congrArg List.length (done_eq.symm.trans same)
            simp [two_stars] at longer
          simp [short]
        · rw [if_neg nonempty]
          rw [two_stars] at done_eq
          have done_eq : done = directory ++ ['/', '*', '*'] := done_eq
          rw [done_eq] at tokens_eq ⊢
          simp [matches_directory plain, tokens_eq, directory_eq]
  · next few =>
      split at finished
      · cases finished
      · cases finished
        have flushed := parsing.flushed few
        refine ⟨⟨_, mem_cons_self, flushed.spelled, ?_⟩, fun path => ?_⟩
        · exact forall_mem_cons.mpr ⟨prefix_rfl, forall_mem_nil _⟩
        · simp [matches_iff_of_not_suffix (parsing.not_suffix few), flushed.text_eq_language]

/-- Reading the remaining text gives the tokens of all of it. -/
theorem Parsing.parse {ended : List (List Token)} (parsed : q.parse rest = some ended) :
    Tokenizes (done ++ rest) ended := by
  induction rest generalizing q done with
  | nil =>
    rw [append_nil]
    exact parsing.finish parsed
  | cons c rest ih =>
    obtain ⟨q', written, parsed⟩ := Option.bind_eq_some_iff.mp parsed
    have tokenizes := ih (parsing.writeRune written) parsed
    rwa [append_assoc] at tokenizes

end Tokenizer

/-- The labels of the states that become end states if a pattern is added. -/
def tokenize (pattern : List Char) : Option (List (List Token)) := parse {} pattern

/-- The tokenizer gives tokens that accept what the pattern matches. -/
theorem tokenizes_of_tokenize {ended : List (List Token)}
    (tokenized : tokenize pattern = some ended) : Tokenizes pattern ended :=
  parsing_nil.parse tokenized

/-! ## Following edges -/

theorem toNat_lt (c : Char) : c.toNat < 2 ^ 22 := by
  rcases c.valid with below | ⟨-, below⟩
  · exact lt_trans below (by decide)
  · exact lt_trans below (by decide)

/-- Adding the initial parts of some lists of tokens gives more labels than states. -/
def Overflows (before ended : List (List Token)) : Prop :=
  ∀ labels : List (List Token), before ⊆ labels →
    (∀ tokens ∈ ended, ∀ others, others <+: tokens → others ∈ labels) →
    2 ^ stateBits < labels.length

variable {before : List (List Token)}

theorem Overflows.of_prefix {ended : List (List Token)} (overflows : Overflows before [tokens])
    (member : others ∈ ended) (longer : tokens <+: others) :
    Overflows before ended := by
  refine fun labels kept closed => overflows labels kept fun _ single first shorter => ?_
  cases mem_singleton.mp single
  exact closed others member first (shorter.trans longer)

/-- Adding patterns does not make an automaton smaller. -/
theorem Overflows.mono {before' ended ended' : List (List Token)}
    (overflows : Overflows before ended) (included : ended ⊆ ended')
    (added : ∀ others ∈ before, others ∈ before' ∨ ∃ tokens ∈ ended', others <+: tokens) :
    Overflows before' ended' := by
  intro labels kept closed
  refine overflows labels (fun others member => ?_) fun tokens member => closed tokens
    (included member)
  rcases added others member with old | ⟨tokens, member, first⟩
  · exact kept old
  · exact closed tokens member others first

/-- A state reached from a tree with certain labels. -/
structure At (before : List (List Token)) (marks : List Token → Mark) (tokens : List Token)
    (labels : List (List Token)) (children : Nat → List Nat) (current : Nat × List State) :
    Prop where
  trie : Trie current.2 labels children marks
  label : labels[current.1]? = some tokens
  mem_iff : ∀ others, others ∈ labels ↔ others ∈ before ∨ others <+: tokens

variable {result : Except String (Nat × List State)}

section

variable {before : List (List Token)} {marks : List Token → Mark} {tokens : List Token}
  {labels : List (List Token)} {children : Nat → List Nat} {current : Nat × List State}

theorem at_root {states : List State} (trie : Trie states labels children marks) :
    At labels marks [] labels children (0, states) where
  trie := trie
  label := trie.root
  mem_iff := by
    intro others
    rw [prefix_nil, or_iff_left_of_imp]
    rintro rfl
    exact mem_of_getElem? trie.root

/-- Following an edge leads to the state of a longer path. -/
theorem At.follow (at_state : At before marks tokens labels children current) {token : Token}
    {result : Except String (Nat × List State)}
    (followed : Meets result (Trie.Reached labels marks (tokens ++ [token]))
      fun _ => Trie.Full labels (tokens ++ [token])) :
    Meets result
      (fun next => ∃ labels' children',
        At before marks (tokens ++ [token]) labels' children' next ∧ labels <+: labels')
      fun _ => Overflows before [tokens ++ [token]] := by
  refine (followed.mono ?_).imp_failure ?_
  · rintro next ⟨labels', children', trie, longer, label, only⟩
    refine ⟨labels', children', ⟨trie, label, fun others => ?_⟩, longer⟩
    rw [prefix_concat_iff, or_left_comm, ← at_state.mem_iff]
    constructor
    · exact fun member => (only others member).symm
    · rintro (rfl | old)
      · exact mem_of_getElem? label
      · exact longer.subset old
  · rintro - ⟨fresh, full⟩ all kept closed
    have closed := closed _ (mem_singleton_self _)
    have distinct : ((tokens ++ [token]) :: labels).Nodup :=
      nodup_cons.mpr ⟨fresh, at_state.trie.nodup⟩
    have included : (tokens ++ [token]) :: labels ⊆ all := by
      refine cons_subset.mpr ⟨closed _ prefix_rfl, fun others member => ?_⟩
      rcases (at_state.mem_iff others).mp member with old | first
      · exact kept old
      · exact closed others (first.trans (prefix_append ..))
    exact Nat.lt_of_lt_of_le (Nat.lt_succ_of_le full)
      (subperm_of_subset distinct included).length_le

end

/-- A tree to which initial parts of lists of tokens were added, which have an end state. -/
def Ended (before : List (List Token)) (marks : List Token → Mark) (endState : EndState)
    (ended : List (List Token)) (states : List State) : Prop :=
  ∃ labels children, Trie states labels children (setEndStates marks ended endState) ∧
    ∀ others, others ∈ labels ↔ others ∈ before ∨ ∃ tokens ∈ ended, others <+: tokens

/-- Marking the state ends the path that leads to it. -/
theorem At.ended {before more labels : List (List Token)} {marks : List Token → Mark}
    {endState : EndState} {tokens : List Token} {children : Nat → List Nat}
    {current : Nat × List State}
    (at_state : At before (setEndStates marks more endState) tokens labels children current)
    (fits : endState < 2 ^ stateBits) (shorter : ∀ others ∈ more, others <+: tokens) :
    Ended before marks endState (tokens :: more)
      (current.2.modify current.1 (·.setEndState endState)) := by
  refine ⟨labels, children, ?_, fun others => ?_⟩
  · rw [← setEndStates_cons]
    exact at_state.trie.setEndState fits at_state.label
  · rw [at_state.mem_iff, exists_mem_cons_iff]
    refine or_congr_right (or_iff_left_of_imp ?_).symm
    rintro ⟨whole, member, first⟩
    exact first.trans (shorter whole member)

namespace PatternParser

/-- A parser whose states have the labels of a tokenizer. -/
structure Reads (before : List (List Token)) (marks : List Token → Mark) (q : Tokenizer)
    (p : PatternParser) : Prop where
  labels : ∃ labels children,
    At before marks q.tokens labels children (p.currentState, p.states) ∧
      labels[p.previousDirectoryEndState]? = some q.previousDirectory
  gotRunes : p.gotRunes = q.gotRunes
  gotStarStarSlash : p.gotStarStarSlash = q.gotStarStarSlash
  gotStars : p.gotStars = q.gotStars

variable {before : List (List Token)} {marks : List Token → Mark} {q : Tokenizer}
  {p : PatternParser} (reads : Reads before marks q p)

include reads

theorem Reads.follow {token : Token} {result : Except String (Nat × List State)}
    (followed : ∀ {labels children}, Trie p.states labels children marks →
      labels[p.currentState]? = some q.tokens →
      Meets result (Trie.Reached labels marks (q.tokens ++ [token]))
        fun _ => Trie.Full labels (q.tokens ++ [token])) :
    Meets (do
        let (currentState, states) ← result
        return { p with currentState, states })
      (Reads before marks { q with tokens := q.tokens ++ [token] })
      fun _ => Overflows before [q.tokens ++ [token]] := by
  obtain ⟨labels, children, at_state, directory⟩ := reads.labels
  refine (at_state.follow (followed at_state.trie at_state.label)).bind ?_
  rintro next ⟨labels', children', at_next, more, rfl⟩
  refine ⟨⟨_, children', at_next, ?_⟩, reads.gotRunes, reads.gotStarStarSlash, reads.gotStars⟩
  rw [getElem?_append_left (List.getElem?_eq_some_iff.mp directory).1]
  exact directory

/-- The parser follows the tokenizer along runes. -/
theorem Reads.addRune (proper : Proper q.tokens) :
    Meets (p.addRune r) (Reads before marks { q with tokens := q.tokens ++ [.rune r.toNat] })
      fun _ => Overflows before [q.tokens ++ [.rune r.toNat]] :=
  reads.follow fun trie label =>
    trie.getOrAddRune_spec (toNat_lt r) label (proper_concat_rune proper _)

theorem Reads.addStar (proper : Proper (q.tokens ++ [.star])) :
    Meets p.addStar (Reads before marks { q with tokens := q.tokens ++ [.star] })
      fun _ => Overflows before [q.tokens ++ [.star]] :=
  reads.follow fun trie label => trie.getOrAddStar_spec label proper

theorem Reads.addStarStarSlash (proper : Proper (q.tokens ++ [.starStarSlash])) :
    Meets p.addStarStarSlash (Reads before marks { q with tokens := q.tokens ++ [.starStarSlash] })
      fun _ => Overflows before [q.tokens ++ [.starStarSlash]] :=
  reads.follow fun trie label => trie.getOrAddStarStarSlash_spec label proper

/-! ## The loop -/

variable {done : List Char} (parsing : q.Parsing done) {endState : EndState}

include parsing

/-- The parser completes stars when the tokenizer does. -/
theorem Reads.flush (few : q.gotStars ≠ 2) {result : Except String PatternParser}
    (none : q.gotStars = 0 → result = .ok p) (one : q.gotStars = 1 → result = p.addStar)
    {α : Type} {next : PatternParser → Except String α} {post : α → Prop}
    {ended : List (List Token)} {tokens : List Token} (member : tokens ∈ ended)
    (longer : q.flushed <+: tokens)
    (later : ∀ p', Reads before marks { q with tokens := q.flushed } p' →
      Meets (next p') post fun _ => Overflows before ended) :
    Meets (result >>= next) post fun _ => Overflows before ended := by
  rcases parsing.flushed_cases few with ⟨stars, same⟩ | ⟨stars, same⟩
  · rw [same] at later
    rw [none stars]
    exact later p reads
  · rw [same] at later longer
    rw [one stars]
    exact ((reads.addStar parsing.proper_star).imp_failure fun _ overflows =>
      overflows.of_prefix member longer).bind later

/-- The parser follows the tokenizer to the next component. -/
theorem Reads.endComponent (few : q.gotStars ≠ 2)
    (nonempty : ¬(q.gotStars = 0 ∧ q.gotRunes = false)) :
    Meets p.endComponent
      (Reads before marks ⟨q.flushed ++ [.rune '/'.toNat], q.flushed, false, false, 0⟩)
      fun _ => Overflows before [q.flushed ++ [.rune '/'.toNat]] := by
  refine reads.flush parsing few (fun stars => ?_) (fun stars => ?_) (mem_singleton_self _)
    (prefix_append ..) fun p' reads' => ?_
  · rw [endStars, reads.gotStars, stars, reads.gotRunes]
    exact if_pos (Bool.not_eq_false _ ▸ fun empty => nonempty ⟨stars, empty⟩)
  · rw [endStars, reads.gotStars, stars]
    rfl
  · obtain ⟨labels, children, at_state, -⟩ := reads'.labels
    have entered : Reads before marks
        { q with tokens := q.flushed, previousDirectory := q.flushed }
        { p' with previousDirectoryEndState := p'.currentState } :=
      ⟨⟨labels, children, at_state, at_state.label⟩, reads'.gotRunes, reads'.gotStarStarSlash,
        reads'.gotStars⟩
    exact (entered.addRune (parsing.flushed few).proper).bind fun _ reads =>
      ⟨reads.labels, rfl, rfl, rfl⟩

/-- The parser fails when the tokenizer does, or when states run out. -/
theorem Reads.writeRune (c : Char) : Refines (p.writeRune c) (q.writeRune c)
    (Reads before marks) fun q => Overflows before [q.tokens] := by
  rw [PatternParser.writeRune, Tokenizer.writeRune, PatternParser.endStarStar, reads.gotStars,
    reads.gotRunes, reads.gotStarStarSlash]
  split
  · split
    · exact .error _
    · split
      · exact .error _
      · exact .of_meets ⟨reads.labels, rfl, rfl, rfl⟩
  · split
    · split
      · split
        · exact .error _
        · next again =>
            have proper := parsing.proper_starStarSlash (Bool.eq_false_iff.mpr again)
            exact .of_meets ((reads.addStarStarSlash proper).bind fun _ reads =>
              ⟨reads.labels, rfl, rfl, rfl⟩)
      · next few =>
          split
          · next empty =>
              rw [PatternParser.endComponent, endStars, reads.gotStars, empty.1, reads.gotRunes,
                empty.2]
              exact .error _
          · next nonempty => exact .of_meets (reads.endComponent parsing few nonempty)
    · by_cases two : q.gotStars = 2
      · rw [insideStars, reads.gotStars, two]
        exact .error _
      rw [if_neg two]
      refine .of_meets (reads.flush parsing two (fun stars => ?_) (fun stars => ?_)
        (mem_singleton_self _) (prefix_append ..) fun p' reads => ?_)
      · rw [insideStars, reads.gotStars, stars]
        rfl
      · rw [insideStars, reads.gotStars, stars]
        rfl
      · exact (reads.addRune (parsing.flushed two).proper).bind fun _ reads =>
          ⟨reads.labels, rfl, reads.gotStarStarSlash, rfl⟩

/-! ## The end of a pattern -/

variable (fits : endState < 2 ^ stateBits)

include fits

omit parsing in
theorem Reads.setEndState :
    Reads before
      (setEndStates marks (if q.previousDirectory = [] then [] else [q.previousDirectory]) endState)
      q { p with
        states :=
          if p.previousDirectoryEndState > 0 then
            p.states.modify p.previousDirectoryEndState (·.setEndState endState)
          else p.states } := by
  obtain ⟨labels, children, at_state, directory⟩ := reads.labels
  refine ⟨⟨labels, children, ⟨?_, at_state.label, at_state.mem_iff⟩, directory⟩, reads.gotRunes,
    reads.gotStarStarSlash, reads.gotStars⟩
  have root := at_state.trie.root
  by_cases empty : q.previousDirectory = []
  · rw [empty] at directory
    have index := at_state.trie.index_eq directory root
    rw [if_pos empty, if_neg (not_lt.mpr (le_of_eq index))]
    exact at_state.trie
  · have index : p.previousDirectoryEndState ≠ 0 := by
      intro index
      rw [index, root] at directory
      exact empty (Option.some.inj directory).symm
    rw [if_neg empty, if_pos (pos_of_ne_zero index), ← setEndStates_cons]
    exact at_state.trie.setEndState fits directory

/-- Both end the same paths. -/
theorem Reads.finish :
    Refines (p.finish endState) q.finish (Ended before marks endState) (Overflows before) := by
  rw [Tokenizer.finish]
  by_cases two : q.gotStars = 2
  · have stars := reads.gotStars.trans two
    rw [PatternParser.finish, trailingStars, ← reads.gotStarStarSlash]
    split
    · next zero => cases zero.symm.trans stars
    · next one => cases one.symm.trans stars
    · split
      · exact .error _
      rename_i again
      rw [reads.gotStarStarSlash] at again
      have proper := parsing.proper_starStarSlash (Bool.eq_false_iff.mpr again)
      have marked := (reads.setEndState fits).addStarStarSlash proper
      rw [bind_assoc]
      refine .of_meets ((marked.imp_failure fun _ overflows => overflows.of_prefix
        mem_cons_self (prefix_append ..)).bind fun p' reads' => ?_)
      have star := reads'.addStar (proper_concat_of_follows proper trivial)
      refine (star.imp_failure fun _ overflows => overflows.of_prefix mem_cons_self
        prefix_rfl).bind fun p'' reads'' => ?_
      obtain ⟨_, _, at_end, -⟩ := reads''.labels
      refine at_end.ended fits fun tokens member => ?_
      split at member
      · cases member
      · cases mem_singleton.mp member
        rw [append_assoc]
        exact parsing.directory_le.trans (prefix_append ..)
    · next other => cases other stars
  · rw [if_neg two]
    split
    · next empty =>
        rw [PatternParser.finish, trailingStars, reads.gotStars, empty.1, reads.gotRunes, empty.2]
        exact .error _
    rename_i nonempty
    refine .of_meets (reads.flush parsing two (fun stars => ?_) (fun stars => ?_)
      (mem_singleton_self _) prefix_rfl fun p' reads' => ?_)
    · rw [trailingStars, reads.gotStars, stars, reads.gotRunes]
      exact if_pos (Bool.not_eq_false _ ▸ fun empty => nonempty ⟨stars, empty⟩)
    · rw [trailingStars, reads.gotStars, stars]
      rfl
    · obtain ⟨_, _, at_end, -⟩ := reads'.labels
      exact @At.ended before [] _ _ _ _ _ _ at_end fits (forall_mem_nil _)

/-- The parser follows the tokenizer to the end of the text. -/
theorem Reads.parse (rest : List Char) :
    Refines (rest.foldlM PatternParser.writeRune p >>= (·.finish endState)) (q.parse rest)
      (Ended before marks endState) (Overflows before) := by
  induction rest generalizing p q done with
  | nil => exact reads.finish parsing fits
  | cons c rest ih =>
    rw [foldlM_cons, bind_assoc]
    refine (reads.writeRune parsing c).bind (fun q' p' written reads => ?_) ?_
    · exact ih reads (parsing.writeRune written)
    · intro q' ended overflows parsed
      obtain ⟨tokens, member, longer⟩ := prefix_of_parse parsed
      exact overflows.of_prefix member longer

end PatternParser

open PatternParser

/-! ## Lists of patterns -/

/-- The labels of the states that become end states if patterns are added. -/
def endedTokens (patterns : List (List Char)) : List (List Token) :=
  patterns.flatMap fun pattern => (tokenize pattern).getD []

variable {patterns : List (List Char)}

/-- The paths that patterns end. -/
theorem mem_endedTokens :
    tokens ∈ endedTokens patterns ↔
      ∃ pattern ∈ patterns, ∃ ended, tokenize pattern = some ended ∧ tokens ∈ ended := by
  rw [endedTokens, mem_flatMap]
  refine exists_congr fun pattern => and_congr_right fun _ => ?_
  cases tokenize pattern with
  | none => simp
  | some ended => simp

theorem endedTokens_append (patterns others : List (List Char)) :
    endedTokens (patterns ++ others) = endedTokens patterns ++ endedTokens others :=
  flatMap_append

theorem endedTokens_subset {others : List (List Char)} (included : patterns ⊆ others) :
    endedTokens patterns ⊆ endedTokens others := by
  intro tokens member
  obtain ⟨pattern, inside, ended⟩ := mem_endedTokens.mp member
  exact mem_endedTokens.mpr ⟨pattern, included inside, ended⟩

/-- Valid patterns match what their tokens accept. -/
theorem exists_matches_iff {patterns : List (List Char)}
    (valid : ∀ pattern ∈ patterns, tokenize pattern ≠ none) (path : List Int) :
    (∃ pattern ∈ patterns, Matches pattern path) ↔
      ∃ tokens ∈ endedTokens patterns, path ∈ language tokens := by
  constructor
  · rintro ⟨pattern, inside, matched⟩
    obtain ⟨ended, tokenized⟩ := Option.ne_none_iff_exists'.mp (valid pattern inside)
    obtain ⟨tokens, member, matched⟩ :=
      ((tokenizes_of_tokenize tokenized).matches_iff path).mp matched
    exact ⟨tokens, mem_endedTokens.mpr ⟨pattern, inside, ended, tokenized, member⟩, matched⟩
  · rintro ⟨tokens, member, matched⟩
    obtain ⟨pattern, inside, ended, tokenized, member⟩ := mem_endedTokens.mp member
    exact ⟨pattern, inside,
      ((tokenizes_of_tokenize tokenized).matches_iff path).mpr ⟨tokens, member, matched⟩⟩

variable {states states' : List State} {labels : List (List Token)} {children : Nat → List Nat}
  {marks : List Token → Mark} {endState : EndState} (trie : Trie states labels children marks)

include trie

/-- Adding a pattern ends the paths of its tokens. -/
theorem addPattern_spec (pattern : List Char) (fits : endState < 2 ^ stateBits) :
    Refines (addPattern states pattern endState) (tokenize pattern) (Ended labels marks endState)
      (Overflows labels) :=
  Reads.parse ⟨⟨labels, children, at_root trie, trie.root⟩, rfl, rfl, rfl⟩
    parsing_nil fits pattern

/-- Patterns are added one after the other, up to one that is invalid. -/
theorem addPatterns_spec (kind : PatternKind) (patterns : List (List Char))
    (fits : endState < 2 ^ stateBits) :
    Meets (addPatterns kind endState states patterns)
      (fun states' => (∀ pattern ∈ patterns, tokenize pattern ≠ none) ∧
        Ended labels marks endState (endedTokens patterns) states')
      fun _ => (∀ pattern ∈ patterns, tokenize pattern ≠ none) →
        Overflows labels (endedTokens patterns) := by
  refine Meets.foldlM
    (fun done states' => (∀ pattern ∈ done, tokenize pattern ≠ none) ∧
      Ended labels marks endState (endedTokens done) states') ?_
    ⟨forall_mem_nil _, labels, children, trie, fun others => by simp [endedTokens]⟩
  rintro done pattern rest states₁ rfl ⟨valid, labels₁, children₁, trie₁, mem_iff₁⟩
  have added := addPattern_spec trie₁ pattern fits
  generalize addPattern states₁ pattern endState = result at added
  cases result with
  | error err =>
    intro all
    obtain ⟨ended, tokenized⟩ := Option.ne_none_iff_exists'.mp (all pattern (by simp))
    refine (added ended tokenized).mono (fun tokens member => ?_) fun others member => ?_
    · exact mem_endedTokens.mpr ⟨pattern, by simp, ended, tokenized, member⟩
    · refine ((mem_iff₁ others).mp member).imp_right ?_
      rintro ⟨tokens, member, first⟩
      exact ⟨tokens, endedTokens_subset (subset_append_left ..) member, first⟩
  | ok states₂ =>
    obtain ⟨ended, tokenized, labels₂, children₂, trie₂, mem_iff₂⟩ := added
    have ended_eq : endedTokens (done ++ [pattern]) = endedTokens done ++ ended := by
      simp [endedTokens, tokenized]
    refine ⟨?_, labels₂, children₂, ?_, fun others => ?_⟩
    · rw [forall_mem_append, forall_mem_singleton, tokenized]
      exact ⟨valid, Option.some_ne_none _⟩
    · rwa [ended_eq, ← setEndStates_append]
    · simp [ended_eq, mem_iff₂, mem_iff₁, or_and_right, exists_or, or_assoc]

/-! ## Suffixes -/

/-- The tokens of the pattern that matches files by suffix. -/
def suffixTokens (suffix : List Char) : List Token :=
  [.starStarSlash] ++ [.star] ++ suffix.map fun c => .rune c.toNat

/-- Adding a suffix ends a single path. -/
theorem addSuffix_spec {suffix : List Char} (added : addSuffix states suffix = .ok states') :
    Ended labels marks endStatePositive [suffixTokens suffix] states' := by
  obtain ⟨current₁, starStarSlash, added⟩ := bind_eq_ok_iff.mp added
  obtain ⟨current₂, star, added⟩ := bind_eq_ok_iff.mp added
  obtain ⟨current₃, followed, ⟨⟩⟩ := bind_eq_ok_iff.mp added
  obtain ⟨labels₁, children₁, at₁, -⟩ := ((at_root trie).follow
    (trie.getOrAddStarStarSlash_spec trie.root (.singleton _))).of_eq_ok
    (mapError_eq_ok_iff.mp starStarSlash)
  obtain ⟨labels₂, children₂, at₂, -⟩ := (at₁.follow (at₁.trie.getOrAddStar_spec at₁.label
    (proper_concat_of_follows (.singleton _) trivial))).of_eq_ok (mapError_eq_ok_iff.mp star)
  have step : ∀ {done c} {current next : Nat × List State},
      (∃ labels' children', At labels marks (suffixTokens done) labels' children' current) →
      addSuffixRune suffix current c = .ok next →
      ∃ labels' children', At labels marks (suffixTokens (done ++ [c])) labels' children' next := by
    rintro done c current next ⟨labels', children', at_state⟩ step
    rw [addSuffixRune] at step
    split at step
    · cases step
    have proper := proper_concat_rune
      (at_state.trie.proper _ (mem_of_getElem? at_state.label)) c.toNat
    obtain ⟨labels'', children'', at_next, -⟩ := (at_state.follow
      (at_state.trie.getOrAddRune_spec (toNat_lt c) at_state.label proper)).of_eq_ok
      (mapError_eq_ok_iff.mp step)
    refine ⟨labels'', children'', ?_⟩
    rw [suffixTokens, map_append]
    exact at_next
  obtain ⟨labels₃, children₃, at₃⟩ := invariant_of_foldlM
    (fun (done : List Char) current => ∃ labels' children',
      At labels marks (suffixTokens done) labels' children' current)
    step ⟨labels₂, children₂, at₂⟩ followed
  exact @At.ended labels [] _ _ _ _ _ _ at₃ (by decide) (forall_mem_nil _)

omit trie

/-- Adding suffixes ends one path for each. -/
theorem addSuffixes_spec {suffixes : List (List Char)}
    (added : suffixes.foldlM addSuffix [{}] = .ok states') :
    Ended [[]] (fun _ => {}) endStatePositive (suffixes.map suffixTokens) states' := by
  refine invariant_of_foldlM
    (fun suffixes => Ended [[]] (fun _ => {}) endStatePositive (suffixes.map suffixTokens))
    ?_ ⟨[[]], fun _ => [], Trie.initial, fun others => by simp⟩ added
  rintro done suffix states₁ states₂ ⟨labels, children, trie, mem_iff⟩ step
  obtain ⟨labels', children', trie', mem_iff'⟩ := addSuffix_spec trie step
  rw [setEndStates_append] at trie'
  rw [map_append]
  refine ⟨labels', children', trie', fun others => ?_⟩
  simp [mem_iff', mem_iff, or_assoc]

end Bonanza.Glob
