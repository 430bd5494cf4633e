import Bonanza.Label.Canonical
import Bonanza.Lib.Comparator

/-! # Versions of modules

`ModuleVersion.Compare` orders versions by their identifiers and the separators between them
(`tokens`), up to a plus sign. Versions are compared like these sequences are
(`compare_lt_zero_iff`, `compare_eq_zero_iff`), so that the order is total. Versions that only
differ in what follows the plus sign are equal (`compare_isTotalPreorder_withoutBuild`).
-/

namespace Bonanza.Modules

open Label List

/-- The version of a module. -/
structure ModuleVersion where
  value : Text
  deriving DecidableEq

/-- `stripIdentifier`: the text up to the first separator, and what remains. -/
def stripIdentifier (separators : Text) (text : Text) : Text × Text :=
  (text.takeWhile (· ∉ separators), text.dropWhile (· ∉ separators))

/-- Whether an identifier consists of digits. -/
def identifierIsNumeric (text : Text) : Bool :=
  text.all fun c => '0' ≤ c && c ≤ '9'

/-- `stripSeparator`. Any character that it is called on is a separator. -/
def stripSeparator : Text → Int × Text
  | [] => (0, [])
  | c :: rest => (if c = '-' then -1 else if c = '.' then 1 else 0, rest)

/-- `strings.Compare`. -/
def compareText (a b : Text) : Int :=
  if a < b then -1 else if b < a then 1 else 0

/-- The comparison of two identifiers. -/
def compareIdentifiers (a b : Text) : Int :=
  let d := (if identifierIsNumeric b then 1 else 0) - (if identifierIsNumeric a then 1 else 0)
  if d ≠ 0 then
    -- Numeric identifiers come before all others.
    d
  else if identifierIsNumeric a ∧ (a.length : Int) - b.length ≠ 0 then
    -- There are no leading zeros, so that numbers of more digits are larger.
    a.length - b.length
  else
    compareText a b

/-- The separators that end identifiers after one. Prereleases may contain dashes. -/
def nextSeparators (separators : Text) (separator : Int) : Text :=
  if separator ≤ 0 then ['+', '.'] else separators

/-- The loop of `ModuleVersion.Compare`. -/
def compareLoop : (limit : Nat) → (separators a b : Text) → Int
  | 0, _, _, _ => 0
  | limit + 1, separators, a, b =>
    let (aIdentifier, a) := stripIdentifier separators a
    let (bIdentifier, b) := stripIdentifier separators b
    let d := compareIdentifiers aIdentifier bIdentifier
    if d ≠ 0 then d
    else
      let (aSeparator, a) := stripSeparator a
      let (bSeparator, b) := stripSeparator b
      if aSeparator - bSeparator ≠ 0 ∨ aSeparator = 0 then aSeparator - bSeparator
      else compareLoop limit (nextSeparators separators aSeparator) a b

/-- `ModuleVersion.Compare`. Iterations consume at least one character. -/
def ModuleVersion.compare (a b : ModuleVersion) : Int :=
  compareLoop (a.value.length + b.value.length + 1) ['+', '.', '-'] a.value b.value

/-! ## The order on identifiers -/

/-- Identifiers ordered by whether they are numeric, by length if they are, and by their text. -/
def identifierKey (text : Text) : Nat ×ₗ Nat ×ₗ Text :=
  toLex (if identifierIsNumeric text then 0 else 1,
    toLex (if identifierIsNumeric text then text.length else 0, text))

theorem identifierKey_injective : Function.Injective identifierKey := by
  intro a b same
  exact congrArg (fun key => (ofLex (ofLex key).2).2) same

variable {a b : Text}

theorem compareText_lt_zero_iff : compareText a b < 0 ↔ a < b := by
  rw [compareText]
  split_ifs with before after
  · simp [before]
  · simp [before]
  · simp [before]

theorem compareText_eq_zero_iff : compareText a b = 0 ↔ a = b := by
  rw [compareText]
  split_ifs with before after
  · simpa using before.ne
  · simpa using after.ne'
  · simpa using le_antisymm (not_lt.mp after) (not_lt.mp before)

theorem compareIdentifiers_lt_zero_iff :
    compareIdentifiers a b < 0 ↔ identifierKey a < identifierKey b := by
  simp only [compareIdentifiers, identifierKey, Prod.Lex.toLex_lt_toLex]
  cases identifierIsNumeric a <;> cases identifierIsNumeric b <;>
    simp [compareText_lt_zero_iff]
  split_ifs with same
  · have length_eq : a.length = b.length := by omega
    simp [length_eq, compareText_lt_zero_iff]
  · have length_ne : a.length ≠ b.length := by omega
    simp [length_ne]

theorem compareIdentifiers_eq_zero_iff : compareIdentifiers a b = 0 ↔ a = b := by
  constructor
  · intro equal
    rw [compareIdentifiers] at equal
    generalize (if identifierIsNumeric b = true then (1 : Int) else 0) -
      (if identifierIsNumeric a = true then 1 else 0) = d at equal
    split_ifs at equal with different longer
    · exact absurd equal different
    · exact absurd equal longer.2
    · exact compareText_eq_zero_iff.mp equal
  · rintro rfl
    simp [compareIdentifiers, compareText_eq_zero_iff]

/-! ## The order on versions -/

/-- The identifiers of a version, each with the separator that follows it. -/
def tokens : (limit : Nat) → (separators text : Text) → List ((Nat ×ₗ Nat ×ₗ Text) ×ₗ Int)
  | 0, _, _ => []
  | limit + 1, separators, text =>
    let (identifier, text) := stripIdentifier separators text
    let (separator, text) := stripSeparator text
    toLex (identifierKey identifier, separator) ::
      if separator = 0 then [] else tokens limit (nextSeparators separators separator) text

variable {limit : Nat} {separators : Text}

theorem compareLoop_iff :
    (compareLoop limit separators a b < 0 ↔ tokens limit separators a < tokens limit separators b) ∧
      (compareLoop limit separators a b = 0 ↔
        tokens limit separators a = tokens limit separators b) := by
  induction limit generalizing separators a b with
  | zero => simp [compareLoop, tokens]
  | succ limit ih =>
    simp only [compareLoop, tokens, cons_lt_cons_iff, cons.injEq,
      Prod.Lex.toLex_lt_toLex, EmbeddingLike.apply_eq_iff_eq, Prod.mk.injEq]
    rw [← compareIdentifiers_lt_zero_iff, identifierKey_injective.eq_iff,
      ← compareIdentifiers_eq_zero_iff]
    generalize compareIdentifiers _ _ = d
    generalize stripSeparator (stripIdentifier separators a).2 = aRest
    generalize stripSeparator (stripIdentifier separators b).2 = bRest
    by_cases different : d = 0
    · subst different
      by_cases same : aRest.1 = bRest.1
      · by_cases last : bRest.1 = 0
        · simp [same, last]
        · simp [same, last, ih]
      · have apart : aRest.1 - bRest.1 ≠ 0 := by omega
        simp [same, apart]
    · simp [different]

variable {text : Text}

theorem length_stripSeparator_lt
    (continues : (stripSeparator (stripIdentifier separators text).2).1 ≠ 0) :
    (stripSeparator (stripIdentifier separators text).2).2.length < text.length := by
  have le : (stripIdentifier separators text).2.length ≤ text.length :=
    (dropWhile_suffix _).length_le
  cases rest : (stripIdentifier separators text).2 with
  | nil =>
    rw [rest] at continues
    exact absurd rfl continues
  | cons c remainder =>
    rw [rest] at le
    exact le

/-- A larger limit gives the same tokens. -/
theorem tokens_eq {larger : Nat} (enough : text.length < limit) (le : limit ≤ larger) :
    tokens larger separators text = tokens limit separators text := by
  induction limit generalizing larger separators text with
  | zero => omega
  | succ limit ih =>
    obtain ⟨larger, rfl⟩ : ∃ n, larger = n + 1 := ⟨larger - 1, by omega⟩
    simp only [tokens]
    by_cases last : (stripSeparator (stripIdentifier separators text).2).1 = 0
    · simp [last]
    · have shorter := length_stripSeparator_lt last
      rw [ih (by omega) (by omega)]

/-- A version without its build identifiers. -/
def withoutBuild (text : Text) : Text := text.takeWhile (· ≠ '+')

/-- The text that consists of given identifiers and separators. -/
def render (tokens : List ((Nat ×ₗ Nat ×ₗ Text) ×ₗ Int)) : Text :=
  (tokens.map fun token => (ofLex (ofLex (ofLex token).1).2).2 ++
    if (ofLex token).2 = 0 then [] else if (ofLex token).2 < 0 then ['-'] else ['.']).flatten

theorem tokens_append {identifier rest : Text} (free : ∀ c ∈ identifier, c ∉ separators)
    (first : ∀ c ∈ rest.head?, c ∈ separators) :
    tokens (limit + 1) separators (identifier ++ rest) =
      toLex (identifierKey identifier, (stripSeparator rest).1) ::
        if (stripSeparator rest).1 = 0 then []
        else tokens limit (nextSeparators separators (stripSeparator rest).1)
          (stripSeparator rest).2 := by
  have kept : ∀ c ∈ identifier, decide (c ∉ separators) = true := by simpa using free
  have ends : rest.takeWhile (· ∉ separators) = [] ∧ rest.dropWhile (· ∉ separators) = rest := by
    cases rest with
    | nil => simp
    | cons c rest => simp [first c rfl]
  rw [tokens, stripIdentifier, takeWhile_append_of_pos kept, dropWhile_append_of_pos kept, ends.1,
    ends.2, append_nil]

theorem render_tokens (enough : text.length < limit) (plus : '+' ∈ separators)
    (known : ∀ c ∈ separators, c = '+' ∨ c = '.' ∨ c = '-') :
    render (tokens limit separators text) = withoutBuild text ∧
      tokens limit separators (withoutBuild text) = tokens limit separators text := by
  induction limit generalizing separators text with
  | zero => cases enough
  | succ limit ih =>
    obtain ⟨identifier, rest, rfl, free, first⟩ : ∃ identifier rest, text = identifier ++ rest ∧
        (∀ c ∈ identifier, c ∉ separators) ∧ ∀ c ∈ rest.head?, c ∈ separators :=
      ⟨_, _, (takeWhile_append_dropWhile (p := (· ∉ separators))).symm,
        fun c member => by simpa using mem_takeWhile_imp member, fun c member => by
          have := head?_dropWhile_not (· ∉ separators) text
          grind⟩
    have build : withoutBuild (identifier ++ rest) = identifier ++ withoutBuild rest := by
      refine takeWhile_append_of_pos fun c member => ?_
      simpa using fun same : c = '+' => free c member (same ▸ plus)
    have still : ∀ c ∈ (withoutBuild rest).head?, c ∈ separators := by
      cases rest with
      | nil => nofun
      | cons c rest => by_cases same : c = '+' <;> simp_all [withoutBuild]
    rw [build, tokens_append free still, tokens_append free first]
    cases rest with
    | nil => simp [render, withoutBuild, identifierKey, stripSeparator]
    | cons c rest =>
      have shorter : rest.length < limit := by grind
      rcases known c (first c rfl) with rfl | rfl | rfl
      · simp [render, withoutBuild, identifierKey, stripSeparator]
      · obtain ⟨rendered, kept⟩ := @ih separators rest shorter plus known
        simp_all [render, withoutBuild, identifierKey, stripSeparator, nextSeparators]
      · obtain ⟨rendered, kept⟩ := @ih ['+', '.'] rest shorter (by simp) (by simp)
        simp_all [render, withoutBuild, identifierKey, stripSeparator, nextSeparators]

namespace ModuleVersion

/-- The identifiers and separators of a version. -/
def tokens (v : ModuleVersion) : List ((Nat ×ₗ Nat ×ₗ Text) ×ₗ Int) :=
  Modules.tokens (v.value.length + 1) ['+', '.', '-'] v.value

variable {a b : ModuleVersion}

theorem compare_lt_zero_iff : a.compare b < 0 ↔ a.tokens < b.tokens := by
  rw [compare, compareLoop_iff.1, tokens, tokens,
    tokens_eq (Nat.lt_succ_self a.value.length) (by omega),
    tokens_eq (Nat.lt_succ_self b.value.length) (by omega)]

theorem compare_eq_zero_iff : a.compare b = 0 ↔ a.tokens = b.tokens := by
  rw [compare, compareLoop_iff.2, tokens, tokens,
    tokens_eq (Nat.lt_succ_self a.value.length) (by omega),
    tokens_eq (Nat.lt_succ_self b.value.length) (by omega)]

theorem zero_le_compare_iff : 0 ≤ a.compare b ↔ b.tokens ≤ a.tokens := by
  rw [← not_lt, compare_lt_zero_iff, not_lt]

theorem zero_lt_compare_iff : 0 < a.compare b ↔ b.tokens < a.tokens := by
  rw [lt_iff_le_and_ne, lt_iff_le_and_ne, zero_le_compare_iff, ne_comm, Ne, compare_eq_zero_iff,
    ne_comm]

theorem compare_isTotalPreorder : Comparator.IsTotalPreorder compare where
  flip a b := by rw [compare_lt_zero_iff, zero_lt_compare_iff]
  trans a b c first second := by
    rw [zero_le_compare_iff] at first second ⊢
    exact second.trans first

/-- The comparison is a total preorder, in which versions are equal if and only if they are the
same up to their build identifiers. -/
theorem compare_isTotalPreorder_withoutBuild (a b : ModuleVersion) :
    Comparator.IsTotalPreorder compare ∧
      (a.compare b = 0 ↔ withoutBuild a.value = withoutBuild b.value) := by
  refine ⟨compare_isTotalPreorder, ?_⟩
  have spec (v : ModuleVersion) :=
    @render_tokens (v.value.length + 1) ['+', '.', '-'] v.value (by simp) (by simp) (by simp)
  have tokens_eq_withoutBuild (v : ModuleVersion) : v.tokens =
      Modules.tokens ((withoutBuild v.value).length + 1) ['+', '.', '-'] (withoutBuild v.value) := by
    have shorter : (withoutBuild v.value).length ≤ v.value.length := (takeWhile_sublist _).length_le
    rw [tokens, ← (spec v).2]
    exact tokens_eq (Nat.lt_succ_self _) (by omega)
  rw [compare_eq_zero_iff]
  constructor
  · intro same
    rw [← (spec a).1, ← (spec b).1]
    exact congrArg render same
  · intro same
    rw [tokens_eq_withoutBuild a, tokens_eq_withoutBuild b, same]

end ModuleVersion

end Bonanza.Modules
