import Mathlib

/-! # Sums over lists of parts

A quantity that is spread over the parts of a state is a sum over lists. These
lemmas say how it changes when a single part is replaced, added or removed. They
are stated without subtraction.
-/

namespace Counting

open List Function

variable {α β : Type*} {list : List α} {index : Nat} {old : α}

theorem sum_map_eraseIdx (f : α → Nat) (found : list[index]? = some old) :
    ((list.eraseIdx index).map f).sum + f old = (list.map f).sum := by
  obtain ⟨inside, rfl⟩ := List.getElem?_eq_some_iff.mp found
  have removed := CommMonoid.add_sum_eraseIdx (inside.trans_eq (length_map f).symm)
  rwa [getElem_map, Nat.add_comm, eraseIdx_map] at removed

theorem sum_map_set (f : α → Nat) (found : list[index]? = some old) (new : α) :
    ((list.set index new).map f).sum + f old = (list.map f).sum + f new := by
  have inside := (List.getElem?_eq_some_iff.mp found).1
  have replaced := sum_map_eraseIdx f (@getElem?_set_self _ _ _ new inside)
  rw [eraseIdx_set_eq] at replaced
  rw [← replaced, ← sum_map_eraseIdx f found, Nat.add_right_comm]

theorem sum_map_concat (f : α → Nat) (list : List α) (new : α) :
    ((list ++ [new]).map f).sum = (list.map f).sum + f new := by
  rw [map_append, sum_append, map_singleton, sum_singleton]

section Update

variable [DecidableEq α] (f : α → β → Nat) (table : α → β) {key : α} {keys : List α} (value : β)

theorem sum_map_update_of_not_mem (absent : key ∉ keys) :
    (keys.map fun other => f other (update table key value other)).sum =
      (keys.map fun other => f other (table other)).sum := by
  congr 1
  refine map_congr_left fun other member => ?_
  rw [update_of_ne]
  rintro rfl
  exact absent member

/-- Changing one element changes one summand. -/
theorem sum_map_update (distinct : keys.Nodup) (member : key ∈ keys) :
    (keys.map fun other => f other (update table key value other)).sum + f key (table key) =
      (keys.map fun other => f other (table other)).sum + f key value := by
  induction keys with
  | nil => cases member
  | cons first rest ih =>
    obtain ⟨absent, distinct⟩ := nodup_cons.mp distinct
    simp only [map_cons, sum_cons]
    rcases mem_cons.mp member with rfl | later
    · rw [sum_map_update_of_not_mem f table value absent, update_self]
      omega
    have other : first ≠ key := by
      rintro rfl
      exact absent later
    rw [update_of_ne other]
    have := ih distinct later
    omega

end Update

theorem exists_of_sum_map_pos {f : α → Nat} (positive : 0 < (list.map f).sum) :
    ∃ element ∈ list, 0 < f element := by
  by_contra none_positive
  have zero : (list.map f).sum = 0 := by
    refine sum_eq_zero fun value member => ?_
    obtain ⟨element, element_member, rfl⟩ := mem_map.mp member
    by_contra nonzero
    exact none_positive ⟨element, element_member, Nat.pos_of_ne_zero nonzero⟩
  omega

theorem le_sum_map (f : α → Nat) {element : α} (member : element ∈ list) :
    f element ≤ (list.map f).sum :=
  single_le_sum (fun _ _ => Nat.zero_le _) _ (mem_map_of_mem member)

end Counting
