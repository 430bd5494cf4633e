import Mathlib

/-! # Replacing occurrences of strings

`replaceAll` scans a text from left to right, and replaces every string out of a list that it finds.
Strings do not contain each other (`Separate`).

Such a scan need not look ahead. It only keeps the longest part at the end of the text that may
become one of the strings, which is the state of the automaton by Aho and Corasick. `longest_append`
says how it follows from the previous one, and `replaceAll_advance` which part of the text can be
written.
-/

namespace Occurrences

open List

variable {α : Type*} [DecidableEq α] {needle matched : List α} {a : α}

/-! ## Definitions -/

/-- Scan a text, of which the given number of elements is skipped. -/
def replaceFrom (pairs : List (List α × List α)) : Nat → List α → List α
  | _, [] => []
  | skip + 1, _ :: text => replaceFrom pairs skip text
  | 0, a :: text =>
    match pairs.find? fun pair => pair.1.isPrefixOf (a :: text) with
    | none => a :: replaceFrom pairs 0 text
    | some (needle, replacement) => replacement ++ replaceFrom pairs (needle.length - 1) text

/-- Replace leftmost occurrences that do not overlap by their replacement. -/
def replaceAll (needles replacements : List (List α)) (text : List α) : List α :=
  replaceFrom (needles.zip replacements) 0 text

/-- The longest part at the end of a text with which a string starts. -/
def longest (needles : List (List α)) : List α → List α
  | [] => []
  | a :: text => if needles.any ((a :: text).isPrefixOf ·) then a :: text else longest needles text

/-- The part of the text that may still become one of the strings. -/
def advance (needles : List (List α)) (matched : List α) (a : α) : List α :=
  if longest needles (matched ++ [a]) ∈ needles then [] else longest needles (matched ++ [a])

/-- Strings are not empty, and none of them is part of another one. -/
structure Separate (needles : List (List α)) : Prop where
  nonempty : [] ∉ needles
  apart : ∀ {i j : Nat} {x y}, needles[i]? = some x → needles[j]? = some y → x <:+: y → i = j

/-- Some string starts with the given one, and is longer. -/
def Started (needles : List (List α)) (matched : List α) : Prop :=
  ∃ needle ∈ needles, matched <+: needle ∧ matched ≠ needle

/-! ## Longest matches -/

section

variable {needles : List (List α)} {text : List α}

theorem longest_cons_eq : longest needles (a :: text) =
    if ∃ needle ∈ needles, a :: text <+: needle then a :: text else longest needles text := by
  simp only [longest, any_eq_true, isPrefixOf_iff_prefix]

theorem longest_of_isPrefix (member : needle ∈ needles) (starts : text <+: needle) :
    longest needles text = text := by
  cases text with
  | nil => rfl
  | cons a text => rw [longest_cons_eq, if_pos ⟨needle, member, starts⟩]

theorem longest_suffix (needles : List (List α)) (text : List α) :
    longest needles text <:+ text := by
  induction text with
  | nil => exact suffix_refl []
  | cons a text ih =>
    rw [longest_cons_eq]
    split
    · exact suffix_refl _
    · exact ih.trans (suffix_cons a text)

theorem longest_isPrefix (needles : List (List α)) (text : List α) :
    longest needles text = [] ∨ ∃ needle ∈ needles, longest needles text <+: needle := by
  induction text with
  | nil => exact .inl rfl
  | cons a text ih =>
    rw [longest_cons_eq]
    split
    next starts => exact .inr starts
    · exact ih

theorem suffix_longest (ends : matched <:+ text) (member : needle ∈ needles)
    (starts : matched <+: needle) :
    matched <:+ longest needles text := by
  induction text with
  | nil => exact ends
  | cons a text ih =>
    rw [longest_cons_eq]
    split
    · exact ends
    next absent =>
      rcases suffix_cons_iff.mp ends with rfl | later
      · exact absurd ⟨needle, member, starts⟩ absent
      · exact ih later

/-- The longest start of a needle can be updated one element at a time. -/
theorem longest_append (needles : List (List α)) (text : List α) (a : α) :
    longest needles (text ++ [a]) = longest needles (longest needles text ++ [a]) := by
  induction text with
  | nil => rfl
  | cons b text ih =>
    rw [longest_cons_eq]
    split
    · rfl
    next absent =>
      rw [← ih, cons_append, longest_cons_eq, if_neg]
      rintro ⟨needle, member, starts⟩
      exact absent ⟨needle, member, List.IsPrefix.trans (prefix_append (b :: text) [a]) starts⟩

end

/-! ## Scanning -/

variable {needles replacements : List (List α)} {front : List α}

theorem replaceFrom_eq (pairs : List (List α × List α)) (skip : Nat) (text : List α) :
    replaceFrom pairs skip text = replaceFrom pairs 0 (text.drop skip) := by
  induction text generalizing skip with
  | nil => rw [drop_nil, replaceFrom, replaceFrom]
  | cons a text ih =>
    cases skip with
    | zero => rfl
    | succ skip => rw [replaceFrom, drop_succ_cons, ih]

@[simp] theorem replaceAll_nil : replaceAll needles replacements [] = [] := by
  rw [replaceAll, replaceFrom]

theorem replaceAll_cons {text : List α} (none_starts : ∀ needle ∈ needles, ¬ needle <+: a :: text) :
    replaceAll needles replacements (a :: text) = a :: replaceAll needles replacements text := by
  have absent : (needles.zip replacements).find?
      (fun pair => pair.1.isPrefixOf (a :: text)) = none := by
    rw [find?_eq_none]
    rintro ⟨needle, replacement⟩ member starts
    exact none_starts needle (of_mem_zip member).1 ( isPrefixOf_iff_prefix.mp starts)
  rw [replaceAll, replaceFrom, absent]
  rfl

theorem replaceAll_append {front text : List α}
    (none_starts : ∀ {before after}, front = before ++ after → after ≠ [] →
      ∀ needle ∈ needles, ¬ needle <+: after ++ text) :
    replaceAll needles replacements (front ++ text) =
      front ++ replaceAll needles replacements text := by
  induction front with
  | nil => rfl
  | cons a front ih =>
    have first : ∀ needle ∈ needles, ¬ needle <+: a :: (front ++ text) :=
      none_starts (nil_append _).symm (cons_ne_nil a front)
    have later := ih fun {before after} split => none_starts
      (show a :: front = (a :: before) ++ after from congrArg (a :: ·) split)
    rw [cons_append, replaceAll_cons first, later, cons_append]

variable (separate : Separate needles)

include separate

omit [DecidableEq α] in
theorem Separate.eq_of_mem {x y : List α} (member : x ∈ needles) (other : y ∈ needles)
    (part : x <:+: y) : x = y := by
  obtain ⟨i, at_i⟩ := mem_iff_getElem?.mp member
  obtain ⟨j, at_j⟩ := mem_iff_getElem?.mp other
  cases separate.apart at_i at_j part
  rw [at_i] at at_j
  exact Option.some.inj at_j

theorem replaceAll_needle {i : Nat} {replacement : List α} (found : needles[i]? = some needle)
    (replaced : replacements[i]? = some replacement) (text : List α) :
    replaceAll needles replacements (needle ++ text) =
      replacement ++ replaceAll needles replacements text := by
  have paired : (needles.zip replacements)[i]? = some (needle, replacement) :=
    getElem?_zip_eq_some.mpr ⟨found, replaced⟩
  have only : (needles.zip replacements).find?
      (fun pair => pair.1.isPrefixOf (needle ++ text)) = some (needle, replacement) := by
    cases search : (needles.zip replacements).find?
        (fun pair => pair.1.isPrefixOf (needle ++ text)) with
    | none =>
      refine absurd ?_ (find?_eq_none.mp search _ (mem_of_getElem? paired))
      exact isPrefixOf_iff_prefix.mpr (prefix_append needle text)
    | some pair =>
      obtain ⟨j, at_j⟩ := mem_iff_getElem?.mp (mem_of_find?_eq_some search)
      have other := (getElem?_zip_eq_some.mp at_j).1
      have starts : pair.1 <+: needle ++ text := by
        have stopped := find?_some search
        exact isPrefixOf_iff_prefix.mp stopped
      have same : i = j := by
        rcases prefix_or_prefix_of_prefix (prefix_append needle text) starts
          with shorter | longer
        · exact separate.apart found other shorter.isInfix
        · exact (separate.apart other found longer.isInfix).symm
      cases same
      exact at_j.symm.trans paired
  cases needle with
  | nil => exact absurd (mem_of_getElem? found) separate.nonempty
  | cons a needle =>
    rw [cons_append] at only ⊢
    rw [replaceAll, replaceFrom, only]
    simp only [length_cons, Nat.add_sub_cancel]
    rw [replaceFrom_eq, drop_left]
    rfl

omit separate in
theorem replaceAll_self (nonempty : [] ∉ needles) (text : List α) :
    replaceAll needles needles text = text := by
  have copied : ∀ skip, replaceFrom (needles.zip needles) skip text = text.drop skip := by
    induction text with
        intro skip
    | nil =>
      rw [replaceFrom, drop_nil]
    | cons a text ih =>
      cases skip with
      | succ skip => rw [replaceFrom, ih, drop_succ_cons]
      | zero =>
        rw [replaceFrom]
        split
        · rw [ih, drop_zero, drop_zero]
        next needle replacement search =>
          have starts : needle <+: a :: text := by
            have stopped := find?_some search
            exact isPrefixOf_iff_prefix.mp stopped
          obtain ⟨i, at_i⟩ := mem_iff_getElem?.mp (mem_of_find?_eq_some search)
          obtain ⟨found, replaced⟩ := getElem?_zip_eq_some.mp at_i
          rw [found] at replaced
          cases replaced
          cases needle with
          | nil => exact absurd (mem_of_getElem? found) nonempty
          | cons b needle =>
            obtain ⟨rest, whole⟩ := starts
            obtain ⟨rfl, rfl⟩ := cons.inj whole
            rw [ih, length_cons]
            simp
  exact copied 0

omit [DecidableEq α] in
theorem Started.not_infix (started : Started needles matched) (member : needle ∈ needles) :
    ¬ needle <:+: matched := by
  intro part
  obtain ⟨other, other_member, starts, shorter⟩ := started
  cases separate.eq_of_mem member other_member (part.trans starts.isInfix)
  have longer := part.length_le
  exact shorter (starts.eq_of_length_le longer)

theorem replaceAll_started (started : Started needles matched) :
    replaceAll needles replacements matched = matched := by
  have copied : replaceAll needles replacements (matched ++ []) =
      matched ++ replaceAll needles replacements [] := by
    refine replaceAll_append ?_
    rintro before after rfl - needle member starts
    rw [append_nil] at starts
    exact started.not_infix separate member
      (starts.isInfix.trans (suffix_append before after).isInfix)
  rwa [replaceAll_nil, append_nil] at copied

theorem replaceAll_advance (started : matched = [] ∨ Started needles matched)
    (split : matched ++ [a] = front ++ longest needles (matched ++ [a])) (text : List α) :
    replaceAll needles replacements (matched ++ a :: text) =
      front ++ replaceAll needles replacements (longest needles (matched ++ [a]) ++ text) := by
  rw [append_cons, split, append_assoc, ← split]
  refine replaceAll_append ?_
  rintro before after rfl remaining needle member starts
  rw [← append_assoc] at starts
  have whole : matched ++ [a] = before ++ (after ++ longest needles (matched ++ [a])) := by
    rw [← append_assoc, ← split]
  have too_long : ∀ {part : List α}, part <:+ matched ++ [a] → part <+: needle →
      part.length < after.length + (longest needles (matched ++ [a])).length := by
    intro part part_ends part_starts
    have bound := (suffix_longest part_ends member part_starts).length_le
    have := length_pos_iff.mpr remaining
    omega
  rcases prefix_or_prefix_of_prefix starts (prefix_append _ text) with inside | beyond
  · -- The string is part of the text that has been seen. It cannot end before the last element.
    obtain ⟨rest, complete⟩ := inside
    rcases eq_nil_or_concat' rest with rfl | ⟨rest, last, rfl⟩
    · rw [append_nil] at complete
      have short := too_long ⟨before, by rw [complete, ← whole]⟩ (prefix_refl needle)
      rw [complete, length_append] at short
      omega
    · rw [← complete, ← append_assoc, ← append_assoc] at whole
      have part : needle <:+: matched := ⟨before, rest, (append_inj_left' whole rfl).symm⟩
      rcases started with rfl | started
      · cases infix_nil.mp part
        exact separate.nonempty member
      · exact started.not_infix separate member part
  · have short := too_long ⟨before, whole.symm⟩ beyond
    rw [length_append] at short
    omega

end Occurrences
