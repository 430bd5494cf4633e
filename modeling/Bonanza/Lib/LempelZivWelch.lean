import Mathlib

/-! # Dictionary coding by Lempel, Ziv and Welch

Data is split into phrases, each of which is given a code. The lowest codes are those of the
symbols. Every other code stands for a phrase with the first symbol of the one that follows it
(`entries`). A phrase may use all codes known once its first symbol is, so also that of the previous
phrase with its own first symbol.

`Encoding` says that a list of codes stands for a list of phrases. A phrase that is not a symbol is
a copy of data before it, with a symbol that may be its own first one (`reconstruct`).
-/

namespace LempelZivWelch

open List

variable {α : Type*}

/-- The phrases with the first symbol of the next one. -/
def entries : List (List α) → List (List α)
  | [] => []
  | [_] => []
  | phrase :: next :: rest => (phrase ++ next.take 1) :: entries (next :: rest)

variable (phrases : List (List α))

include phrases

@[simp] theorem length_entries : (entries phrases).length = phrases.length - 1 := by
  induction phrases using entries.induct with
  | case1 => rfl
  | case2 phrase => rfl
  | case3 phrase next rest ih =>
    rw [entries, length_cons, ih]
    rfl

theorem entries_concat_concat (phrase next : List α) :
    entries (phrases ++ [phrase] ++ [next]) =
      entries (phrases ++ [phrase]) ++ [phrase ++ next.take 1] := by
  induction phrases using entries.induct with
  | case1 => rfl
  | case2 first => rfl
  | case3 first second rest ih =>
    simp only [cons_append, entries] at ih ⊢
    rw [ih]

theorem entries_concat_congr {last last' : List α} (same : last.take 1 = last'.take 1) :
    entries (phrases ++ [last]) = entries (phrases ++ [last']) := by
  rcases eq_nil_or_concat phrases with rfl | ⟨front, phrase, rfl⟩
  · rfl
  · rw [concat_eq_append, entries_concat_concat, entries_concat_concat, same]

omit phrases

variable {phrases : List (List α)} {k : Nat}

theorem getElem?_entries {entry : List α} (found : (entries phrases)[k]? = some entry) :
    ∃ phrase next, phrases[k]? = some phrase ∧ phrases[k + 1]? = some next ∧
      entry = phrase ++ next.take 1 := by
  induction phrases using entries.induct generalizing k with
  | case1 => cases found
  | case2 phrase => cases found
  | case3 phrase next rest ih =>
    cases k with
    | zero =>
      cases found
      exact ⟨phrase, next, rfl, rfl, rfl⟩
    | succ k => exact ih found

/-! ## Codes -/

variable (symbols : Nat → α) (size : Nat)

/-- What a code stands for, given an alphabet and a list of entries. -/
def meaning (dictionary : List (List α)) (code : Nat) : Option (List α) :=
  if code < size then some [symbols code] else dictionary[code - size]?

variable {symbols size} {dictionary : List (List α)} {code : Nat}

theorem meaning_of_lt (literal : code < size) :
    meaning symbols size dictionary code = some [symbols code] := if_pos literal

variable {phrase : List α} (found : meaning symbols size dictionary code = some phrase)

include found

theorem code_lt : code < size + dictionary.length := by
  rw [meaning] at found
  split_ifs at found with literal
  · omega
  · have := (List.getElem?_eq_some_iff.mp found).1
    omega

theorem meaning_append (more : List (List α)) :
    meaning symbols size (dictionary ++ more) code = some phrase := by
  rw [meaning] at found ⊢
  split_ifs at found ⊢ with literal
  · exact found
  · rw [getElem?_append_left (List.getElem?_eq_some_iff.mp found).1]
    exact found

omit found

theorem meaning_concat (dictionary : List (List α)) (entry : List α) :
    meaning symbols size (dictionary ++ [entry]) (size + dictionary.length) = some entry := by
  rw [meaning, if_neg (by omega), Nat.add_sub_cancel_left, getElem?_concat_length]

variable (symbols size)

/-- The codes stand for the phrases, which follow the ones given first. -/
inductive Encoding : List (List α) → List (List α) → List Nat → Prop
  | nil {before : List (List α)} : Encoding before [] []
  | cons {before phrases : List (List α)} {codes : List Nat} {phrase : List α} {code : Nat}
      (nonempty : phrase ≠ [])
      (stands : meaning symbols size (entries (before ++ [phrase])) code = some phrase)
      (rest : Encoding (before ++ [phrase]) phrases codes) :
      Encoding before (phrase :: phrases) (code :: codes)

variable {symbols size}

namespace Encoding

variable {before phrases : List (List α)} {codes : List Nat}
  (encoding : Encoding symbols size before phrases codes)

include encoding

theorem length_eq : codes.length = phrases.length := by
  induction encoding with
  | nil => rfl
  | cons nonempty stands rest ih => rw [length_cons, length_cons, ih]

theorem concat {code : Nat} (nonempty : phrase ≠ [])
    (stands : meaning symbols size (entries (before ++ phrases ++ [phrase])) code = some phrase) :
    Encoding symbols size before (phrases ++ [phrase]) (codes ++ [code]) := by
  induction encoding with
  | nil =>
    rw [append_nil] at stands
    exact .cons nonempty stands .nil
  | cons first_nonempty first_stands rest ih =>
    rw [← append_cons] at ih
    exact .cons first_nonempty first_stands (ih stands)

end Encoding

/-! ## Offsets of phrases -/

/-- The positions at which phrases start. -/
def offsets (phrases : List (List α)) : List Nat :=
  (List.range phrases.length).map fun k => (phrases.take k).flatten.length

theorem offsets_concat (phrases : List (List α)) (phrase : List α) :
    offsets (phrases ++ [phrase]) = offsets phrases ++ [phrases.flatten.length] := by
  rw [offsets, length_append, length_singleton, range_succ, map_append, map_singleton, take_left]
  congr 1
  apply map_congr_left
  intro k member
  rw [take_append_of_le_length (le_of_lt (mem_range.mp member))]

theorem getElem?_offsets (bound : k < phrases.length) :
    (offsets phrases)[k]? = some (phrases.take k).flatten.length := by
  rw [offsets, getElem?_map, getElem?_range bound, Option.map_some]

theorem flatten_eq (found : phrases[k]? = some phrase) :
    phrases.flatten = (phrases.take k).flatten ++ (phrase ++ (phrases.drop (k + 1)).flatten) := by
  obtain ⟨bound, same⟩ := List.getElem?_eq_some_iff.mp found
  nth_rewrite 1 [← take_append_drop k phrases]
  rw [drop_eq_getElem_cons bound, same, flatten_append, flatten_cons]

/-- Phrases are found at their offsets. -/
theorem extract_flatten (found : phrases[k]? = some phrase) :
    phrases.flatten.extract (phrases.take k).flatten.length
      (phrases.take (k + 1)).flatten.length = phrase := by
  have longer : (phrases.take (k + 1)).flatten.length =
      (phrases.take k).flatten.length + phrase.length := by
    rw [take_add_one, found, flatten_append]
    simp
  rw [longer, extract_eq_take_drop, Nat.add_sub_cancel_left, flatten_eq found, drop_left, take_left]

/-- The phrase of a code that is not a symbol is a copy of data observed, or of itself. -/
theorem reconstruct (nonempty : ∀ other ∈ phrases, other ≠ []) (entry : ¬ code < size)
    (stands : meaning symbols size (entries (phrases ++ [phrase])) code = some phrase) :
    ∃ first last front symbol,
      (offsets (phrases ++ [phrase]))[code - size]? = some first ∧
      (offsets (phrases ++ [phrase]))[code - size + 1]? = some last ∧
      phrases.flatten.extract first last = front ∧
      (phrases.flatten ++ front)[last]? = some symbol ∧ phrase = front ++ [symbol] := by
  rw [meaning, if_neg entry] at stands
  generalize code - size = k at stands
  have inside : k < phrases.length := by
    have := (List.getElem?_eq_some_iff.mp stands).1
    rw [length_entries, length_append] at this
    exact this
  obtain ⟨front, next, at_k, at_next, same⟩ := getElem?_entries stands
  rw [getElem?_append_left inside] at at_k
  have front_nonempty : front ≠ [] := nonempty front (mem_of_getElem? at_k)
  have total : k + 1 < (phrases ++ [phrase]).length := by
    rw [length_append, length_singleton]
    omega
  have take_eq : ∀ {count}, count ≤ phrases.length →
      (phrases ++ [phrase]).take count = phrases.take count :=
    take_append_of_le_length
  -- The last symbol is the first one of the next phrase, which may be the phrase itself.
  obtain ⟨symbol, located, first⟩ : ∃ symbol,
      (phrases.flatten ++ front)[(phrases.take (k + 1)).flatten.length]? = some symbol ∧
        next.take 1 = [symbol] := by
    by_cases earlier : k + 1 < phrases.length
    · rw [getElem?_append_left earlier] at at_next
      obtain ⟨symbol, rest, rfl⟩ := exists_cons_of_ne_nil (nonempty next (mem_of_getElem? at_next))
      refine ⟨symbol, ?_, rfl⟩
      rw [flatten_eq at_next, append_assoc, getElem?_append_right (Nat.le_refl _), Nat.sub_self]
      rfl
    · have last : k + 1 = phrases.length := by omega
      rw [last, getElem?_concat_length] at at_next
      cases at_next
      obtain ⟨symbol, rest, rfl⟩ := exists_cons_of_ne_nil front_nonempty
      refine ⟨symbol, ?_, by rw [same]; rfl⟩
      rw [last, take_length, getElem?_append_right (Nat.le_refl _), Nat.sub_self]
      rfl
  refine ⟨_, _, front, symbol, getElem?_offsets (Nat.lt_of_succ_lt total),
    getElem?_offsets total, ?_, ?_, first ▸ same⟩
  · rw [take_eq (Nat.le_of_lt inside), take_eq inside]
    exact extract_flatten at_k
  · rw [take_eq inside]
    exact located

end LempelZivWelch
