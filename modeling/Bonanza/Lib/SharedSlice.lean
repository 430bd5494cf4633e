import Mathlib

/-! # Slices that share an array with a loop

A loop over a slice keeps on reading the array that the slice had when the loop started. Removing
an element from the slice by overwriting it with the last one, and clearing the entry of the last
one, is therefore visible to the loop. Entries that have been cleared are `none`.
-/

universe u

/-- The elements of a slice, and the entries of the array that follow them. -/
structure SharedSlice (α : Type u) where
  live : List α
  behind : List (Option α)
  deriving DecidableEq, Repr

namespace SharedSlice

open List

variable {α : Type u}

/-- A slice that extends to the end of its array. -/
def ofList (elements : List α) : SharedSlice α := ⟨elements, []⟩

/-- The array, as observed by loops started earlier. -/
def array (slice : SharedSlice α) : List (Option α) := slice.live.map some ++ slice.behind

/-- Let the slice be empty, without altering its array. -/
def reset (slice : SharedSlice α) : SharedSlice α := ⟨[], slice.array⟩

variable [DecidableEq α]

/-- Overwrite the first entry of an element by the last one, which is cleared. This fails if the
element is absent. -/
def remove (slice : SharedSlice α) (element : α) : Option (SharedSlice α) :=
  match slice.live.getLast? with
  | none => none
  | some last =>
    if element ∈ slice.live then
      some ⟨(slice.live.set (slice.live.idxOf element) last).dropLast, none :: slice.behind⟩
    else none

variable {element : α}

theorem perm_erase_set_dropLast {elements : List α} {last : α}
    (ends : elements.getLast? = some last) (member : element ∈ elements) :
    ((elements.set (elements.idxOf element) last).dropLast).Perm (elements.erase element) := by
  obtain ⟨init, rfl⟩ := getLast?_eq_some_iff.mp ends
  by_cases earlier : element ∈ init
  · have found : init.idxOf element < init.length := idxOf_lt_length_of_mem earlier
    rw [idxOf_append_of_mem earlier, set_append_left _ _ found, dropLast_concat,
      erase_append_left _ earlier]
    refine (set_perm_cons_eraseIdx found last).trans ?_
    rw [← erase_eq_eraseIdx_of_idxOf rfl]
    exact (perm_append_singleton last _).symm
  · obtain rfl : element = last := by
      rcases mem_append.mp member with before | same
      · exact absurd before earlier
      · exact mem_singleton.mp same
    rw [idxOf_append_of_notMem earlier, idxOf_cons_self, Nat.add_zero,
      set_append_right _ _ (Nat.le_refl _), Nat.sub_self, set_cons_zero, dropLast_concat,
      erase_append_right _ earlier, erase_cons_head, append_nil]

variable {slice : SharedSlice α}

theorem remove_of_mem (member : element ∈ slice.live) :
    ∃ live, slice.remove element = some ⟨live, none :: slice.behind⟩ ∧
      live.Perm (slice.live.erase element) := by
  obtain ⟨last, ends⟩ := Option.isSome_iff_exists.mp (getLast?_isSome.mpr (ne_nil_of_mem member))
  refine ⟨_, ?_, perm_erase_set_dropLast ends member⟩
  simp [remove, ends, if_pos member]

variable {slice' : SharedSlice α} {index : Nat}

theorem mem_of_remove (removed : slice.remove element = some slice') : element ∈ slice.live := by
  by_contra absent
  simp only [remove, if_neg absent] at removed
  cases ends : slice.live.getLast? with
  | none => rw [ends] at removed; cases removed
  | some last => rw [ends] at removed; cases removed

/-- The entry at an index was cleared, and the slice no longer extends to it. -/
def Cleared (index : Nat) (slice : SharedSlice α) : Prop :=
  slice.live.length ≤ index ∧ slice.array[index]? = some none

omit [DecidableEq α] in
theorem Cleared.reset (cleared : slice.Cleared index) : slice.reset.Cleared index :=
  ⟨Nat.zero_le _, cleared.2⟩

theorem length_of_remove (removed : slice.remove element = some slice') :
    slice.live.length = slice'.live.length + 1 ∧ slice'.behind = none :: slice.behind := by
  have member := mem_of_remove removed
  obtain ⟨live, removed', perm⟩ := remove_of_mem member
  rw [removed'] at removed
  cases removed
  have shorter := perm.length_eq
  have positive := length_pos_of_mem member
  rw [length_erase_of_mem member] at shorter
  refine ⟨?_, rfl⟩
  change slice.live.length = live.length + 1
  omega

theorem Cleared.remove (cleared : slice.Cleared index)
    (removed : slice.remove element = some slice') :
    slice'.Cleared index := by
  obtain ⟨shorter, behind⟩ := length_of_remove removed
  obtain ⟨beyond, entry⟩ := cleared
  refine ⟨by omega, ?_⟩
  simp only [array] at entry ⊢
  rw [getElem?_append_right (by rwa [length_map]), length_map] at entry
  rw [getElem?_append_right (by rw [length_map]; omega), length_map, behind,
    show index - slice'.live.length = index - slice.live.length + 1 by omega]
  exact entry

/-- Removing an element clears the slot at the end. -/
theorem cleared_of_remove (last : slice.live.length = index + 1)
    (removed : slice.remove element = some slice') :
    slice'.Cleared index := by
  obtain ⟨shorter, behind⟩ := length_of_remove removed
  have same : slice'.live.length = index := by omega
  refine ⟨Nat.le_of_eq same, ?_⟩
  rw [array, behind, getElem?_append_right (by rw [length_map]; omega), length_map,
    same, Nat.sub_self, getElem?_cons_zero]

end SharedSlice
