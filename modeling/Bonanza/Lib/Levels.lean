import Mathlib

/-! # Walking a graph level by level

The ball of a given radius around a set holds everything that can be reached from it along a
limited number of edges (`mem_ball_iff`). A walk that only follows the edges of what was reached
for the first time in the previous level obtains the same balls (`ball_succ_eq`). If the graph is
finite, a level that adds nothing is met (`exists_fresh_eq_empty`), after which balls do not grow
any more (`mem_ball_of_fresh_eq_empty`).
-/

namespace Levels

open Finset


variable {α : Type*} {edge : α → α → Prop} {count : Nat} {a b : α}

/-- A walk along a given number of edges. -/
inductive Walk (edge : α → α → Prop) : Nat → α → α → Prop where
  | refl (a : α) : Walk edge 0 a a
  | tail {count : Nat} {a b c : α} (walk : Walk edge count a b) (last : edge b c) :
      Walk edge (count + 1) a c

theorem Walk.head {c : α} (first : edge a b) (walk : Walk edge count b c) :
    Walk edge (count + 1) a c := by
  induction walk with
  | refl b => exact .tail (.refl a) first
  | tail walk last ih => exact .tail (ih first) last

theorem Walk.swap (walk : Walk edge count a b) : Walk (fun b a => edge a b) count b a := by
  induction walk with
  | refl a => exact .refl a
  | tail walk last ih => exact ih.head last

theorem Walk.mono {other : α → α → Prop} (implies : ∀ a b, edge a b → other a b)
    (walk : Walk edge count a b) : Walk other count a b := by
  induction walk with
  | refl a => exact .refl a
  | tail walk last ih => exact .tail ih (implies _ _ last)

theorem Walk.of_closed {set : Set α} (closed : ∀ a b, a ∈ set → edge a b → b ∈ set)
    (started : a ∈ set) (walk : Walk edge count a b) :
    Walk (fun s t => s ∈ set ∧ edge s t) count a b ∧ b ∈ set := by
  induction walk with
  | refl a => exact ⟨.refl a, started⟩
  | tail walk last ih =>
    obtain ⟨inside, reached⟩ := ih started
    exact ⟨.tail inside ⟨reached, last⟩, closed _ _ reached last⟩

variable [DecidableEq α] (successors : α → Finset α) (start : Finset α)

/-- What can be reached along at most a given number of edges. -/
def ball : Nat → Finset α
  | 0 => start
  | radius + 1 => ball radius ∪ (ball radius).biUnion successors

/-- What is reached for the first time along a given number of edges. -/
def fresh : Nat → Finset α
  | 0 => start
  | radius + 1 => ball successors start (radius + 1) \ ball successors start radius

variable {successors start} {radius : Nat}

theorem ball_subset_ball_succ : ball successors start radius ⊆ ball successors start (radius + 1) :=
  subset_union_left

theorem ball_mono {larger : Nat} (le : radius ≤ larger) :
    ball successors start radius ⊆ ball successors start larger := by
  induction le with
  | refl => exact Finset.Subset.refl _
  | step _ ih => exact ih.trans ball_subset_ball_succ

/-- Balls contain what short walks reach. -/
theorem mem_ball_iff :
    b ∈ ball successors start radius ↔
      ∃ count ≤ radius, ∃ a ∈ start, Walk (fun a b => b ∈ successors a) count a b := by
  constructor
  · intro member
    induction radius generalizing b with
    | zero => exact ⟨0, Nat.le_refl _, b, member, .refl b⟩
    | succ radius ih =>
      rcases mem_union.mp member with member | member
      · obtain ⟨count, le, walk⟩ := ih member
        exact ⟨count, Nat.le_succ_of_le le, walk⟩
      · obtain ⟨c, member, last⟩ := mem_biUnion.mp member
        obtain ⟨count, le, a, started, walk⟩ := ih member
        exact ⟨count + 1, Nat.succ_le_succ le, a, started, .tail walk last⟩
  · rintro ⟨count, le, a, started, walk⟩
    refine ball_mono le ?_
    clear le
    induction walk with
    | refl => exact started
    | tail walk last ih =>
      exact mem_union_right _ (mem_biUnion.mpr ⟨_, ih started, last⟩)

theorem ball_succ_eq :
    ball successors start (radius + 1) =
      ball successors start radius ∪ (fresh successors start radius).biUnion successors := by
  cases radius with
  | zero => rfl
  | succ radius =>
    apply Finset.Subset.antisymm
    · refine union_subset subset_union_left ?_
      intro b member
      obtain ⟨a, reached, edge⟩ := mem_biUnion.mp member
      by_cases earlier : a ∈ ball successors start radius
      · refine mem_union_left _ (mem_union_right _ ?_)
        exact mem_biUnion.mpr ⟨a, earlier, edge⟩
      · refine mem_union_right _ (mem_biUnion.mpr ⟨a, ?_, edge⟩)
        exact mem_sdiff.mpr ⟨reached, earlier⟩
    · refine union_subset_union_right ?_
      exact biUnion_subset_biUnion_of_subset_left _ sdiff_subset

theorem fresh_succ_eq :
    fresh successors start (radius + 1) =
      (fresh successors start radius).biUnion successors \ ball successors start radius := by
  rw [fresh, ball_succ_eq, union_sdiff_left]

theorem ball_succ_eq_union_fresh :
    ball successors start (radius + 1) =
      ball successors start radius ∪ fresh successors start (radius + 1) := by
  rw [fresh, union_sdiff_of_subset ball_subset_ball_succ]

theorem ball_subset_of_fresh_eq_empty (empty : fresh successors start radius = ∅) (larger : Nat) :
    ball successors start larger ⊆ ball successors start radius := by
  have closed : ball successors start (radius + 1) = ball successors start radius := by
    rw [ball_succ_eq, empty, biUnion_empty, union_empty]
  induction larger with
  | zero => exact ball_mono (Nat.zero_le radius)
  | succ larger ih =>
    rw [← closed]
    exact union_subset_union ih (biUnion_subset_biUnion_of_subset_left _ ih)

theorem le_card_ball (nonempty : ∀ smaller ≤ radius, fresh successors start smaller ≠ ∅) :
    radius < (ball successors start radius).card := by
  induction radius with
  | zero => exact Finset.card_pos.mpr (Finset.nonempty_iff_ne_empty.mpr (nonempty 0 (Nat.le_refl _)))
  | succ radius ih =>
    have before := ih fun smaller le => nonempty smaller (Nat.le_succ_of_le le)
    have grows : ball successors start radius ⊂ ball successors start (radius + 1) := by
      refine Finset.ssubset_iff_subset_ne.mpr ⟨ball_subset_ball_succ, fun same => ?_⟩
      apply nonempty (radius + 1) (Nat.le_refl _)
      rw [fresh, ← same, Finset.sdiff_self]
    exact Nat.lt_of_le_of_lt before (Finset.card_lt_card grows)

/-- In a finite graph, levels end. -/
theorem exists_fresh_eq_empty {all : Finset α} (started : start ⊆ all)
    (closed : ∀ a ∈ all, successors a ⊆ all) :
    ∃ radius ≤ all.card, fresh successors start radius = ∅ := by
  by_contra absent
  have nonempty : ∀ smaller ≤ all.card, fresh successors start smaller ≠ ∅ :=
    fun smaller le empty => absent ⟨smaller, le, empty⟩
  have inside : ∀ radius, ball successors start radius ⊆ all := by
    intro radius
    induction radius with
    | zero => exact started
    | succ radius ih =>
      exact union_subset ih (biUnion_subset.mpr fun a member => closed a (ih member))
  have larger := le_card_ball nonempty
  exact absurd (card_le_card (inside all.card)) (Nat.not_le_of_lt larger)

end Levels
