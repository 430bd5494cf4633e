import Mathlib

/-! # Overwriting stretches of memory

`writeAt` overwrites part of a store indexed by natural numbers, and `copyInto` part of a list. Both
leave everything outside the written stretch alone.
-/

namespace Overwrite

open List

variable {α : Type*} {values list : List α} {index : Nat} {value : α}

/-- Overwrite a store with a list of values, from an offset on. -/
def writeAt (store : Nat → α) (offset : Nat) (values : List α) : Nat → α := fun position =>
  if offset ≤ position then values.getD (position - offset) (store position) else store position

theorem writeAt_inside (store : Nat → α) (offset : Nat) (found : values[index]? = some value) :
    writeAt store offset values (offset + index) = value := by
  rw [writeAt, if_pos (Nat.le_add_right _ _), Nat.add_sub_cancel_left, getD_eq_getElem?_getD,
    found, Option.getD_some]

/-- Other bytes are left alone. -/
theorem writeAt_outside (store : Nat → α) {offset position : Nat}
    (outside : position < offset ∨ offset + values.length ≤ position) :
    writeAt store offset values position = store position := by
  unfold writeAt
  split
  · have beyond : values.length ≤ position - offset := by omega
    rw [getD_eq_getElem?_getD, getElem?_eq_none beyond, Option.getD_none]
  · rfl

/-- Copy as much of a list as fits into another one, from an offset on. -/
def copyInto (destination : List α) (offset : Nat) (source : List α) : List α :=
  destination.take offset ++
    (source.take (destination.length - offset) ++ destination.drop (offset + source.length))

section CopyInto

variable {destination source : List α} {offset : Nat}
  (fits : offset + source.length ≤ destination.length)
include fits

theorem length_copyInto : (copyInto destination offset source).length = destination.length := by
  simp only [copyInto, length_append, length_take, length_drop]
  omega

theorem length_take_offset : (destination.take offset).length = offset := by
  rw [length_take]
  omega

theorem take_source : source.take (destination.length - offset) = source :=
  take_of_length_le (by omega)

theorem getElem?_copyInto_inside (inside : index < source.length) :
    (copyInto destination offset source)[offset + index]? = source[index]? := by
  have start := length_take_offset fits
  rw [copyInto, take_source fits, getElem?_append_right (by omega), start,
    Nat.add_sub_cancel_left, getElem?_append_left inside]

theorem getElem?_copyInto_outside (outside : index < offset ∨ offset + source.length ≤ index) :
    (copyInto destination offset source)[index]? = destination[index]? := by
  have start := length_take_offset fits
  rw [copyInto, take_source fits]
  rcases outside with before | behind
  · rw [getElem?_append_left (by omega), getElem?_take_of_lt before]
  · rw [getElem?_append_right (by omega), getElem?_append_right (by omega), getElem?_drop]
    congr 1
    omega

end CopyInto

theorem lt_length (found : list[index]? = some value) : index < list.length :=
  (List.getElem?_eq_some_iff.mp found).1

theorem getElem?_concat_eq_some_iff {added : α} :
    (list ++ [added])[index]? = some value ↔
      list[index]? = some value ∨ index = list.length ∧ added = value := by
  rcases lt_trichotomy index list.length with old | last | beyond
  · rw [getElem?_append_left old]
    simp [ne_of_lt old]
  · subst last
    simp
  · rw [getElem?_eq_none (by simp; omega), getElem?_eq_none (by omega)]
    simp [ne_of_gt beyond]

theorem set_eq_self (found : list[index]? = some value) : list.set index value = list := by
  obtain ⟨inside, rfl⟩ := List.getElem?_eq_some_iff.mp found
  exact set_getElem_self inside

end Overwrite
