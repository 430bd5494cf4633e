import Mathlib

/-! # Binary heaps

A list is a heap if no element is less than its parent. With a strict weak order, no element is
less than the first one (`IsHeap.not_lt_first`).
-/

namespace BinaryHeap

variable {α : Type*} {lt : α → α → Prop} {h : List α} {a b c : α}

/-- No element is less than its parent. -/
def IsHeap (lt : α → α → Prop) (h : List α) : Prop :=
  ∀ i element parent, h[i + 1]? = some element → h[i / 2]? = some parent → ¬lt element parent

theorem isStrictWeakOrder_of_splits (asymm : ∀ a b, lt a b → ¬lt b a)
    (splits : ∀ a b c, lt a c → lt a b ∨ lt b c) : IsStrictWeakOrder α lt where
  irrefl a self := asymm a a self self
  trans a b c first second := (splits a c b first).resolve_right (asymm b c second)
  incomp_trans a b c first second :=
    ⟨fun less => (splits a b c less).elim first.1 second.1,
      fun less => (splits c b a less).elim second.2 first.2⟩

variable [IsStrictWeakOrder α lt]

theorem lt_or_lt (less : lt a c) (b : α) : lt a b ∨ lt b c := by
  by_contra neither
  obtain ⟨left, right⟩ := not_or.mp neither
  have left' : ¬lt b a := fun back => right (IsTrans.trans b a c back less)
  have right' : ¬lt c b := fun back => left (IsTrans.trans a c b less back)
  exact (IsStrictWeakOrder.incomp_trans a b c ⟨left, left'⟩ ⟨right, right'⟩).1 less

/-- No element is before the first one. -/
theorem IsHeap.not_lt_first (heap : IsHeap lt h) {first : α} (found : h[0]? = some first) (i : Nat)
    {element : α} (member : h[i]? = some element) : ¬lt element first := by
  induction i using Nat.strong_induction_on generalizing element with
  | _ i ih =>
    intro less
    cases i with
    | zero =>
      cases found.symm.trans member
      exact irrefl first less
    | succ i =>
      have inside := (List.getElem?_eq_some_iff.mp member).1
      have parent := List.getElem?_eq_getElem (show i / 2 < h.length by omega)
      rcases lt_or_lt less h[i / 2] with below | below
      · exact heap i element _ member parent below
      · exact ih (i / 2) (by omega) parent below

end BinaryHeap
