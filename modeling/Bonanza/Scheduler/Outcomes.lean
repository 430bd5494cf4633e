import Mathlib

/-! # Outcomes of executions

To choose a size class, outcomes of previous executions are compared. `IsFaster()` merges two sorted
lists of execution times, and awards points to the first for samples that are faster than those of
the second. Merging the lists in the opposite order takes the same steps, so that the points of both
add up to the same total (`isFaster_antisymmetric`).
-/

namespace Bonanza.InitialSizeClass

open List

/-- Execution times are integers, and the number of samples is not bounded. -/
structure Outcomes where
  successes : List Int
  failures : Nat

/-- Either of the loops that consume identical values. -/
def consumeEqual (current : Int) (equal : Nat) : List Int → Nat × List Int
  | [] => (equal, [])
  | first :: rest =>
    if first ≠ current then (equal, first :: rest) else consumeEqual current (equal + 1) rest

theorem consumeEqual_spec (current : Int) (equal : Nat) (successes : List Int) :
    equal ≤ (consumeEqual current equal successes).1 ∧
      (consumeEqual current equal successes).1 + (consumeEqual current equal successes).2.length =
        equal + successes.length := by
  fun_induction consumeEqual with grind

/-- The loop of `IsFaster`, followed by the score for trailing elements. -/
def isFasterLoop (score remainingB : Nat) (successesA successesB : List Int) : Nat :=
  match successesA, successesB with
  | a :: restA, b :: restB =>
    if a < b then isFasterLoop (score + 2 * remainingB) remainingB restA (b :: restB)
    else if a > b then isFasterLoop score (remainingB - 1) (a :: restA) restB
    else
      let consumedA := consumeEqual a 1 restA
      let consumedB := consumeEqual a 1 restB
      isFasterLoop (score + consumedA.1 * (2 * remainingB - consumedB.1))
        (remainingB - consumedB.1) consumedA.2 consumedB.2
  | successesA, _ => score + 2 * successesA.length * remainingB
termination_by successesA.length + successesB.length
decreasing_by
  · simp
  · simp
  · have := consumeEqual_spec a 1 restA
    have := consumeEqual_spec a 1 restB
    simp only [length_cons]
    omega

section

variable {successesA successesB : List Int} {scoreA remainingB : Nat}

theorem le_isFasterLoop : scoreA ≤ isFasterLoop scoreA remainingB successesA successesB := by
  fun_induction isFasterLoop scoreA remainingB successesA successesB with omega

theorem isFasterLoop_add_isFasterLoop {failuresA failuresB remainingA : Nat} (scoreB : Nat)
    (lengthA : remainingA = successesA.length + failuresA)
    (lengthB : remainingB = successesB.length + failuresB) :
    isFasterLoop scoreA remainingB successesA successesB +
        isFasterLoop scoreB remainingA successesB successesA =
      scoreA + scoreB + 2 * successesA.length * successesB.length +
        2 * successesA.length * failuresB + 2 * successesB.length * failuresA := by
  fun_induction isFasterLoop scoreA remainingB successesA successesB
    generalizing scoreB remainingA with
  | case1 scoreA remainingB a restA b restB lt ih =>
    rw [isFasterLoop, if_neg lt.not_gt, if_pos lt, ih scoreB (by simp [lengthA]) lengthB, lengthB]
    simp only [length_cons]
    ring
  | case2 scoreA remainingB a restA b restB _ gt ih =>
    rw [isFasterLoop, if_pos gt, ih _ lengthA (by simp [lengthB]), lengthA]
    simp only [length_cons]
    ring
  | case3 scoreA remainingB a restA b restB lt gt consumedA consumedB =>
    rename_i ih
    obtain rfl : a = b := by omega
    have totalA : consumedA.1 + consumedA.2.length = 1 + restA.length :=
      (consumeEqual_spec a 1 restA).2
    have totalB : consumedB.1 + consumedB.2.length = 1 + restB.length :=
      (consumeEqual_spec a 1 restB).2
    rw [isFasterLoop, if_neg lt, if_neg gt]
    simp only [length_cons, Nat.add_comm _ 1, ← totalA, ← totalB] at lengthA lengthB ⊢
    have pointsA : 2 * remainingA - consumedA.1 =
        consumedA.1 + 2 * consumedA.2.length + 2 * failuresA := by omega
    have pointsB : 2 * remainingB - consumedB.1 =
        consumedB.1 + 2 * consumedB.2.length + 2 * failuresB := by omega
    refine (ih _ (show remainingA - consumedA.1 = _ by omega) (by omega)).trans ?_
    rw [pointsA, pointsB]
    ring
  | case4 scoreA remainingB successesB successesA ends =>
    cases successesA with
    | nil =>
      simp [isFasterLoop, lengthA]
      ring
    | cons a restA =>
      cases successesB with
      | nil =>
        simp [isFasterLoop, lengthB]
        ring
      | cons b restB => exact (ends a restA b restB rfl rfl).elim

end

namespace Outcomes

/-- The number of samples. -/
def count (o : Outcomes) : Nat := o.successes.length + o.failures

/-- The numerator and the denominator of `IsFaster`. -/
def isFaster (o other : Outcomes) : Nat × Nat :=
  (isFasterLoop (1 + other.count) other.count o.successes other.successes +
      o.failures * other.failures,
    2 + o.count + other.count + 2 * o.count * other.count)

theorem isFaster_pos (o other : Outcomes) : 0 < (o.isFaster other).1 := by
  have least := @le_isFasterLoop o.successes other.successes (1 + other.count) other.count
  unfold isFaster
  omega

theorem isFaster_add_isFaster (o other : Outcomes) :
    (o.isFaster other).1 + (other.isFaster o).1 = (o.isFaster other).2 := by
  have loops := @isFasterLoop_add_isFasterLoop o.successes other.successes (1 + other.count) _ _ _ _
    (1 + o.count) (rfl : o.count = _) (rfl : other.count = _)
  unfold isFaster
  dsimp only
  simp only [count] at loops ⊢
  linarith

/-- The scores of two outcomes add up to the denominator, so that each is positive and lower. -/
theorem isFaster_antisymmetric (o other : Outcomes) :
    (o.isFaster other).1 + (other.isFaster o).1 =
        2 + o.count + other.count + 2 * o.count * other.count ∧
      (o.isFaster other).2 = 2 + o.count + other.count + 2 * o.count * other.count ∧
      (other.isFaster o).2 = (o.isFaster other).2 ∧
      0 < (o.isFaster other).1 ∧ (o.isFaster other).1 < (o.isFaster other).2 ∧
      2 * (o.isFaster o).1 = (o.isFaster o).2 := by
  have total := isFaster_add_isFaster o other
  have positive := isFaster_pos other o
  refine ⟨total, rfl, ?_, isFaster_pos o other, by omega, ?_⟩
  · rw [← total, ← isFaster_add_isFaster, Nat.add_comm]
  · rw [Nat.two_mul, isFaster_add_isFaster]

end Outcomes

end Bonanza.InitialSizeClass
