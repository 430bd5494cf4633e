import Mathlib

/-! # Three-way comparison functions

A three-way comparison returns a negative number, zero or a positive number. It
describes a total preorder when swapping its arguments flips the sign and when
`0 ≤ compare a b`, read as "`a` does not come before `b`", is transitive.
Distinct values may compare as equal.
-/

namespace Comparator

variable {α : Type*}

/-- A three-way comparison by a total preorder. -/
structure IsTotalPreorder (compare : α → α → Int) : Prop where
  flip : ∀ a b, compare a b < 0 ↔ 0 < compare b a
  trans : ∀ a b c, 0 ≤ compare a b → 0 ≤ compare b c → 0 ≤ compare a c

namespace IsTotalPreorder

variable {compare : α → α → Int} (order : IsTotalPreorder compare) {a b c : α}
include order

theorem refl (a : α) : 0 ≤ compare a a := by
  have swapped := order.flip a a
  omega

theorem nonneg_of_flip_neg (before : compare a b < 0) : 0 ≤ compare b a :=
  Int.le_of_lt ((order.flip a b).mp before)

/-- A value that does not come before another does not come before what precedes it either. -/
theorem nonneg_of_nonneg_of_neg (first : 0 ≤ compare a b) (second : compare c b < 0) :
    0 ≤ compare a c :=
  order.trans a b c first (order.nonneg_of_flip_neg second)

theorem neg_of_neg_of_nonneg (first : compare a b < 0) (second : 0 ≤ compare c b) :
    compare a c < 0 := by
  by_contra absurd
  have swapped := order.trans a c b (Int.not_lt.mp absurd) second
  omega

end IsTotalPreorder

end Comparator
