import Mathlib

/-! # Regular expressions

Regular expressions whose atoms are classes of characters, what they match (`Matches`), and
a matcher that takes derivatives (`isMatch_iff`). Lists of items with separators between them are
matched by `sepBy` (`matches_sepBy_iff`).
-/

universe u

/-- Regular expressions over characters of a given type. -/
inductive Regex (α : Type u) where
  | empty
  | epsilon
  | satisfying (accepts : α → Bool)
  | seq (first second : Regex α)
  | alt (first second : Regex α)
  | star (inner : Regex α)

namespace Regex

open List

variable {α : Type u} {r s : Regex α} {v w : List α} {a : α} {accepts : α → Bool} {text : List α}
  {property : List α → Prop} {form : List α → List α}

/-- The texts matched as a whole. -/
inductive Matches : Regex α → List α → Prop
  | epsilon : Matches epsilon []
  | satisfying {accepts : α → Bool} {a : α} (accepted : accepts a) :
      Matches (satisfying accepts) [a]
  | seq {r s : Regex α} {v w : List α} (first : Matches r v) (second : Matches s w) :
      Matches (seq r s) (v ++ w)
  | altLeft {r s : Regex α} {w : List α} (left : Matches r w) : Matches (alt r s) w
  | altRight {r s : Regex α} {w : List α} (right : Matches s w) : Matches (alt r s) w
  | starNil {r : Regex α} : Matches (star r) []
  | starCons {r : Regex α} {v w : List α} (first : Matches r v) (rest : Matches (star r) w) :
      Matches (star r) (v ++ w)

@[simp]
theorem matches_epsilon_iff : Matches epsilon w ↔ w = [] := by
  constructor
  · rintro ⟨⟩
    rfl
  · rintro rfl
    exact .epsilon

theorem matches_satisfying_iff : Matches (satisfying accepts) w ↔ ∃ a, accepts a ∧ w = [a] := by
  constructor
  · rintro ⟨⟩
    exact ⟨_, ‹_›, rfl⟩
  · rintro ⟨a, accepted, rfl⟩
    exact .satisfying accepted

theorem matches_seq_iff :
    Matches (seq r s) w ↔ ∃ before after, Matches r before ∧ Matches s after ∧
      w = before ++ after := by
  constructor
  · rintro ⟨⟩
    exact ⟨_, _, ‹_›, ‹_›, rfl⟩
  · rintro ⟨before, after, first, second, rfl⟩
    exact .seq first second

theorem matches_alt_iff : Matches (alt r s) w ↔ Matches r w ∨ Matches s w := by
  constructor
  · intro matched
    cases matched with
    | altLeft left => exact .inl left
    | altRight right => exact .inr right
  · rintro (left | right)
    · exact .altLeft left
    · exact .altRight right

theorem matches_star_iff :
    Matches (star r) w ↔ ∃ items : List (List α), (∀ item ∈ items, Matches r item) ∧
      w = items.flatten := by
  constructor
  · intro matched
    generalize repeated : star r = whole at matched
    induction matched with
    | starNil => exact ⟨[], nofun, rfl⟩
    | starCons first _ _ ih =>
      cases repeated
      obtain ⟨items, each, rfl⟩ := ih rfl
      exact ⟨_ :: items, forall_mem_cons.mpr ⟨first, each⟩, rfl⟩
    | _ => cases repeated
  · rintro ⟨items, each, rfl⟩
    induction items with
    | nil => exact .starNil
    | cons item items ih =>
      rw [forall_mem_cons] at each
      exact .starCons each.1 (ih each.2)

theorem matches_star_satisfying_iff :
    Matches (star (satisfying accepts)) w ↔ ∀ a ∈ w, accepts a := by
  constructor
  · intro matched
    obtain ⟨items, each, rfl⟩ := matches_star_iff.mp matched
    intro a member
    obtain ⟨item, present, inside⟩ := mem_flatten.mp member
    obtain ⟨b, accepted, rfl⟩ := matches_satisfying_iff.mp (each item present)
    rwa [mem_singleton.mp inside]
  · intro each
    induction w with
    | nil => exact .starNil
    | cons a w ih =>
      rw [forall_mem_cons] at each
      exact @Matches.starCons _ _ [a] w (.satisfying each.1) (ih each.2)

/-! ## Matching using derivatives -/

/-- Whether the empty text is matched. -/
def nullable : Regex α → Bool
  | empty => false
  | epsilon => true
  | satisfying _ => false
  | seq r s => nullable r && nullable s
  | alt r s => nullable r || nullable s
  | star _ => true

/-- What remains to be matched after a character. -/
def derivative (a : α) : Regex α → Regex α
  | empty => empty
  | epsilon => empty
  | satisfying accepts => if accepts a then epsilon else empty
  | seq r s =>
    if nullable r then alt (seq (derivative a r) s) (derivative a s) else seq (derivative a r) s
  | alt r s => alt (derivative a r) (derivative a s)
  | star r => seq (derivative a r) (star r)

/-- Whether a text is matched as a whole. -/
def isMatch (r : Regex α) (w : List α) : Bool :=
  nullable (w.foldl (fun r a => derivative a r) r)

/-- Only nullable expressions match the empty text. -/
theorem nullable_iff : nullable r ↔ Matches r [] := by
  induction r with
  | empty => exact ⟨nofun, nofun⟩
  | epsilon => exact ⟨fun _ => .epsilon, fun _ => rfl⟩
  | satisfying accepts => exact ⟨nofun, nofun⟩
  | seq r s ihr ihs =>
    rw [nullable, Bool.and_eq_true, ihr, ihs, matches_seq_iff]
    constructor
    · intro both
      exact ⟨[], [], both.1, both.2, rfl⟩
    · rintro ⟨before, after, first, second, split⟩
      obtain ⟨rfl, rfl⟩ := append_eq_nil_iff.mp split.symm
      exact ⟨first, second⟩
  | alt r s ihr ihs => rw [nullable, Bool.or_eq_true, ihr, ihs, matches_alt_iff]
  | star r => exact ⟨fun _ => .starNil, fun _ => rfl⟩

theorem matches_star_cons_iff :
    Matches (star r) (a :: w) ↔ ∃ before after, Matches r (a :: before) ∧
      Matches (star r) after ∧ w = before ++ after := by
  constructor
  · intro matched
    obtain ⟨items, each, whole⟩ := matches_star_iff.mp matched
    induction items with
    | nil => cases whole
    | cons item items ih =>
      rw [forall_mem_cons] at each
      cases item with
      | nil => exact ih each.2 whole
      | cons b item =>
        obtain ⟨rfl, rfl⟩ := List.cons.inj whole
        exact ⟨item, _, each.1, matches_star_iff.mpr ⟨items, each.2, rfl⟩, rfl⟩
  · rintro ⟨before, after, first, rest, rfl⟩
    exact .starCons first rest

/-- Derivatives match what may follow a character. -/
theorem matches_derivative_iff : Matches (derivative a r) w ↔ Matches r (a :: w) := by
  induction r generalizing w with
  | empty => exact ⟨nofun, nofun⟩
  | epsilon => exact ⟨nofun, nofun⟩
  | satisfying accepts =>
    rw [derivative, matches_satisfying_iff]
    split_ifs with accepted
    · rw [matches_epsilon_iff]
      constructor
      · rintro rfl
        exact ⟨a, accepted, rfl⟩
      · rintro ⟨b, _, same⟩
        exact (List.cons.inj same).2
    · refine ⟨nofun, ?_⟩
      rintro ⟨b, other, same⟩
      obtain ⟨rfl, _⟩ := List.cons.inj same
      exact absurd other accepted
  | seq r s ihr ihs =>
    have later : Matches (seq (derivative a r) s) w ↔ ∃ before after, Matches r (a :: before) ∧
        Matches s after ∧ w = before ++ after := by
      simp [matches_seq_iff, ihr]
    have cases_cons : Matches (seq r s) (a :: w) ↔ (∃ before after, Matches r (a :: before) ∧
        Matches s after ∧ w = before ++ after) ∨ Matches r [] ∧ Matches s (a :: w) := by
      rw [matches_seq_iff]
      constructor
      · rintro ⟨before, after, first, second, split⟩
        cases before with
        | nil => exact .inr ⟨first, split ▸ second⟩
        | cons b before =>
          obtain ⟨rfl, rfl⟩ := List.cons.inj split
          exact .inl ⟨before, after, first, second, rfl⟩
      · rintro (⟨before, after, first, second, rfl⟩ | ⟨first, second⟩)
        · exact ⟨_, _, first, second, rfl⟩
        · exact ⟨[], _, first, second, rfl⟩
    rw [derivative, cases_cons, ← nullable_iff]
    split_ifs with skip
    · rw [matches_alt_iff, later, ihs, and_iff_right skip]
    · rw [later, or_iff_left fun both => skip both.1]
  | alt r s ihr ihs => rw [derivative, matches_alt_iff, matches_alt_iff, ihr, ihs]
  | star r ih => simp only [derivative, matches_seq_iff, ih, matches_star_cons_iff]

/-- Matching by derivatives is correct. -/
theorem isMatch_iff : isMatch r w ↔ Matches r w := by
  induction w generalizing r with
  | nil => exact nullable_iff
  | cons a w ih =>
    rw [← matches_derivative_iff, ← ih]
    rfl

instance : DecidablePred (Matches r) :=
  fun _ => decidable_of_iff _ isMatch_iff

/-! ## Derived forms -/

/-- A given text. -/
def literal [BEq α] : List α → Regex α
  | [] => epsilon
  | a :: rest => seq (satisfying (· == a)) (literal rest)

/-- Something that may be absent. -/
def optional (r : Regex α) : Regex α := alt r epsilon

/-- Something that occurs at least once. -/
def plus (r : Regex α) : Regex α := seq r (star r)

/-- Items with separators between them. -/
def sepBy (item separator : Regex α) : Regex α := seq item (star (seq separator item))

@[simp]
theorem matches_literal_iff [BEq α] [LawfulBEq α] : Matches (literal text) w ↔ w = text := by
  induction text generalizing w with
  | nil => exact matches_epsilon_iff
  | cons a text ih =>
    simp only [literal, matches_seq_iff, matches_satisfying_iff, beq_iff_eq, ih]
    constructor
    · rintro ⟨_, _, ⟨b, rfl, rfl⟩, rfl, rfl⟩
      rfl
    · rintro rfl
      exact ⟨[a], text, ⟨a, rfl, rfl⟩, rfl, rfl⟩

theorem matches_optional_iff : Matches (optional r) w ↔ Matches r w ∨ w = [] := by
  rw [optional, matches_alt_iff, matches_epsilon_iff]

theorem matches_plus_satisfying_iff :
    Matches (plus (satisfying accepts)) w ↔ w ≠ [] ∧ ∀ a ∈ w, accepts a := by
  simp only [plus, matches_seq_iff, matches_satisfying_iff, matches_star_satisfying_iff]
  constructor
  · rintro ⟨_, after, ⟨a, accepted, rfl⟩, each, rfl⟩
    exact ⟨cons_ne_nil _ _, forall_mem_cons.mpr ⟨accepted, each⟩⟩
  · rintro ⟨nonempty, each⟩
    obtain ⟨a, rest, rfl⟩ := exists_cons_of_ne_nil nonempty
    rw [forall_mem_cons] at each
    exact ⟨[a], rest, ⟨a, each.1, rfl⟩, each.2, rfl⟩

theorem exists_map_eq {items : List (List α)}
    (each : ∀ item ∈ items, ∃ inner, property inner ∧ item = form inner) :
    ∃ inners : List (List α), (∀ inner ∈ inners, property inner) ∧ items = inners.map form := by
  induction items with
  | nil => exact ⟨[], nofun, rfl⟩
  | cons item items ih =>
    rw [forall_mem_cons] at each
    obtain ⟨inner, valid, rfl⟩ := each.1
    obtain ⟨inners, others, rfl⟩ := ih each.2
    exact ⟨inner :: inners, forall_mem_cons.mpr ⟨valid, others⟩, rfl⟩

theorem matches_star_form_iff
    (matches_iff : ∀ w, Matches r w ↔ ∃ inner, property inner ∧ w = form inner) :
    Matches (star r) w ↔ ∃ inners : List (List α), (∀ inner ∈ inners, property inner) ∧
      w = (inners.map form).flatten := by
  simp only [matches_star_iff, matches_iff]
  constructor
  · rintro ⟨items, each, rfl⟩
    obtain ⟨inners, valid, rfl⟩ := exists_map_eq each
    exact ⟨inners, valid, rfl⟩
  · rintro ⟨inners, valid, rfl⟩
    refine ⟨inners.map form, ?_, rfl⟩
    intro item member
    obtain ⟨inner, present, rfl⟩ := mem_map.mp member
    exact ⟨inner, valid inner present, rfl⟩

section

variable [BEq α] [LawfulBEq α] {separator : List α}

theorem matches_literal_seq_iff :
    Matches (seq (literal separator) r) w ↔ ∃ inner, Matches r inner ∧ w = separator ++ inner := by
  simp [matches_seq_iff]

theorem matches_seq_literal_iff :
    Matches (seq r (literal separator)) w ↔ ∃ inner, Matches r inner ∧ w = inner ++ separator := by
  simp only [matches_seq_iff, matches_literal_iff]
  constructor
  · rintro ⟨inner, _, matched, rfl, rfl⟩
    exact ⟨inner, matched, rfl⟩
  · rintro ⟨inner, matched, rfl⟩
    exact ⟨inner, _, matched, rfl, rfl⟩

/-- One or more items with separators in between. -/
theorem matches_sepBy_iff :
    Matches (sepBy r (literal separator)) w ↔ ∃ (first : List α) (rest : List (List α)),
      Matches r first ∧ (∀ item ∈ rest, Matches r item) ∧
        w = first ++ (rest.map (separator ++ ·)).flatten := by
  rw [sepBy, matches_seq_iff]
  constructor
  · rintro ⟨first, after, matched, repeated, rfl⟩
    obtain ⟨rest, each, rfl⟩ := (matches_star_form_iff fun _ => matches_literal_seq_iff).mp repeated
    exact ⟨first, rest, matched, each, rfl⟩
  · rintro ⟨first, rest, matched, each, rfl⟩
    exact ⟨first, _, matched,
      (matches_star_form_iff fun _ => matches_literal_seq_iff).mpr ⟨rest, each, rfl⟩, rfl⟩

theorem matches_star_terminated_iff :
    Matches (star (seq r (literal separator))) w ↔ ∃ items : List (List α),
      (∀ item ∈ items, Matches r item) ∧ w = (items.map (· ++ separator)).flatten :=
  matches_star_form_iff fun _ => matches_seq_literal_iff

end

/-! ## Characters of texts -/

/-- No class contains a given character. -/
def avoids (a : α) : Regex α → Bool
  | empty => true
  | epsilon => true
  | satisfying accepts => !accepts a
  | seq r s => avoids a r && avoids a s
  | alt r s => avoids a r && avoids a s
  | star r => avoids a r

/-- Characters that are avoided do not occur. -/
theorem Matches.not_mem (matched : Matches r w) (avoided : avoids a r) : a ∉ w := by
  induction matched with
  | epsilon | starNil => exact not_mem_nil
  | satisfying accepted =>
    rw [mem_singleton]
    rintro rfl
    rw [avoids, accepted] at avoided
    cases avoided
  | seq _ _ ihr ihs =>
    rw [avoids, Bool.and_eq_true] at avoided
    exact not_mem_append (ihr avoided.1) (ihs avoided.2)
  | altLeft _ ih =>
    rw [avoids, Bool.and_eq_true] at avoided
    exact ih avoided.1
  | altRight _ ih =>
    rw [avoids, Bool.and_eq_true] at avoided
    exact ih avoided.2
  | starCons _ _ ihr ihs => exact not_mem_append (ihr avoided) (ihs avoided)

theorem Matches.ne_nil (matched : Matches r w) (never : nullable r = false) : w ≠ [] := by
  rintro rfl
  exact Bool.false_ne_true (never.symm.trans (nullable_iff.mpr matched))

end Regex
