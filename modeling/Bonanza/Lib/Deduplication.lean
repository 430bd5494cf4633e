import Mathlib

/-! # Removal of duplicates

Lists from which elements are removed that are equal to another one. Equality is any equivalence
relation that can be decided, so that it matters which of the elements is kept. The first
occurrence of every element can be obtained by adding elements to a list one by one (`addAll`).
-/

namespace Deduplication

open List

variable {α : Type*} (same : α → α → Bool)

/-- Keep the first occurrence of every element. -/
def firstOccurrences : List α → List α
  | [] => []
  | x :: xs => x :: (firstOccurrences xs).filter fun y => !same x y

/-- Keep the last occurrence of every element. -/
def lastOccurrences : List α → List α
  | [] => []
  | x :: xs => if xs.any (same x) then lastOccurrences xs else x :: lastOccurrences xs

/-- Add an element to a list, unless it is part of it. -/
def add (seen : List α) (x : α) : List α := if seen.any (same x) then seen else seen ++ [x]

/-- Add all elements of another list. -/
def addAll (seen xs : List α) : List α := xs.foldl (add same) seen

/-- An element is part of a list. -/
def Covered (seen : List α) (x : α) : Prop := seen.any (same x) = true

variable {same} {seen xs ys : List α} {x y : α}

theorem covered_iff : Covered same seen x ↔ ∃ y ∈ seen, same x y = true := any_eq_true

theorem add_of_covered (covered : Covered same seen x) : add same seen x = seen := if_pos covered

theorem add_of_not_covered (fresh : ¬ Covered same seen x) : add same seen x = seen ++ [x] :=
  if_neg fresh

@[simp] theorem addAll_nil (seen : List α) : addAll same seen [] = seen := rfl

theorem addAll_cons (seen xs : List α) (x : α) :
    addAll same seen (x :: xs) = addAll same (add same seen x) xs := rfl

theorem addAll_append (seen xs ys : List α) :
    addAll same seen (xs ++ ys) = addAll same (addAll same seen xs) ys := foldl_append

theorem addAll_singleton (seen : List α) (x : α) : addAll same seen [x] = add same seen x := rfl

theorem addAll_of_covered (covered : ∀ x ∈ xs, Covered same seen x) :
    addAll same seen xs = seen := by
  induction xs with
  | nil => rfl
  | cons x xs ih =>
    rw [addAll_cons, add_of_covered (covered x mem_cons_self)]
    exact ih fun y member => covered y (mem_cons_of_mem x member)

theorem Covered.add (covered : Covered same seen y) (x : α) : Covered same (add same seen x) y := by
  rw [Deduplication.add]
  split
  · exact covered
  · obtain ⟨z, member, equal⟩ := covered_iff.mp covered
    exact covered_iff.mpr ⟨z, mem_append_left _ member, equal⟩

theorem Covered.addAll (covered : Covered same seen y) (xs : List α) :
    Covered same (addAll same seen xs) y := by
  induction xs generalizing seen with
  | nil => exact covered
  | cons x xs ih => exact ih (covered.add x)

theorem mem_addAll (member : x ∈ addAll same seen xs) : x ∈ seen ∨ x ∈ xs := by
  induction xs generalizing seen with
  | nil => exact .inl member
  | cons y xs ih =>
    rcases ih member with old | new
    · rw [add] at old
      split at old
      · exact .inl old
      · rcases mem_append.mp old with old | new
        · exact .inl old
        · exact .inr (mem_singleton.mp new ▸ mem_cons_self)
    · exact .inr (mem_cons_of_mem y new)

variable (equivalence : Equivalence fun x y => same x y = true)

include equivalence

theorem same_comm (x y : α) : same x y = same y x :=
  Bool.eq_iff_iff.mpr ⟨equivalence.symm, equivalence.symm⟩

theorem covered_of_mem (member : x ∈ seen) : Covered same seen x :=
  covered_iff.mpr ⟨x, member, equivalence.refl x⟩

theorem covered_add (seen : List α) (x : α) : Covered same (add same seen x) x := by
  by_cases covered : Covered same seen x
  · rw [add_of_covered covered]
    exact covered
  · rw [add_of_not_covered covered]
    exact covered_of_mem equivalence (mem_append_right _ (mem_singleton_self x))

theorem covered_addAll (seen : List α) (member : x ∈ xs) :
    Covered same (addAll same seen xs) x := by
  induction xs generalizing seen with
  | nil => cases member
  | cons y xs ih =>
    rcases mem_cons.mp member with rfl | later
    · exact (covered_add equivalence seen x).addAll xs
    · exact ih (add same seen y) later

theorem covered_congr (equal : same x y = true) (seen : List α) :
    Covered same seen x ↔ Covered same seen y := by
  simp only [covered_iff]
  constructor
  · rintro ⟨z, member, other⟩
    exact ⟨z, member, equivalence.trans (equivalence.symm equal) other⟩
  · rintro ⟨z, member, other⟩
    exact ⟨z, member, equivalence.trans equal other⟩

theorem addAll_eq (seen xs : List α) :
    addAll same seen xs =
      seen ++ (firstOccurrences same xs).filter fun x => !seen.any (same x) := by
  induction xs generalizing seen with
  | nil => simp [firstOccurrences]
  | cons x xs ih =>
    rw [addAll_cons, ih, firstOccurrences]
    by_cases covered : Covered same seen x
    · rw [add_of_covered covered, filter_cons_of_neg (by simpa [Covered] using covered),
        filter_filter]
      congr 1
      apply filter_congr
      intro y member
      by_cases equal : same x y = true
      · have : seen.any (same y) = true := (covered_congr equivalence equal seen).mp covered
        simp [this]
      · simp [equal]
    · have fresh : seen.any (same x) = false := by simpa [Covered] using covered
      rw [add_of_not_covered covered, filter_cons_of_pos (by simp [fresh]),
        filter_filter, append_assoc, singleton_append]
      congr 2
      apply filter_congr
      intro y member
      simp [same_comm equivalence y x]

variable (xs : List α)

theorem addAll_nil_left : addAll same [] xs = firstOccurrences same xs := by
  rw [addAll_eq equivalence]
  simp

theorem covered_firstOccurrences (x : α) :
    Covered same (firstOccurrences same xs) x ↔ Covered same xs x := by
  rw [← addAll_nil_left equivalence]
  constructor
  · intro covered
    obtain ⟨y, member, equal⟩ := covered_iff.mp covered
    rcases mem_addAll member with impossible | found
    · cases impossible
    · exact covered_iff.mpr ⟨y, found, equal⟩
  · intro covered
    obtain ⟨y, member, equal⟩ := covered_iff.mp covered
    exact (covered_congr equivalence equal _).mpr (covered_addAll equivalence [] member)

omit equivalence in
theorem pairwise_firstOccurrences :
    (firstOccurrences same xs).Pairwise fun x y => same x y = false := by
  induction xs with
  | nil => exact .nil
  | cons x xs ih =>
    refine .cons ?_ (ih.filter _)
    intro y member
    simpa using (mem_filter.mp member).2

/-- Last occurrences are first ones in reverse. -/
theorem lastOccurrences_eq :
    lastOccurrences same xs = (firstOccurrences same xs.reverse).reverse := by
  induction xs with
  | nil => rfl
  | cons x xs ih =>
    rw [reverse_cons, ← addAll_nil_left equivalence, addAll_append,
      addAll_nil_left equivalence, addAll_singleton, lastOccurrences, ih]
    have any_eq : (firstOccurrences same xs.reverse).any (same x) = xs.any (same x) := by
      have reversed : xs.reverse.any (same x) = xs.any (same x) := any_reverse
      rw [← reversed]
      exact Bool.eq_iff_iff.mpr (covered_firstOccurrences equivalence xs.reverse x)
    rw [add, any_eq]
    split
    · rfl
    · rw [reverse_append]
      rfl

end Deduplication
