import Bonanza.Lib.BinaryHeap

/-! # Invocations whose workers are rebalanced

Invocations that have idle workers are kept in a heap, so that workers are taken away from the one
whose workers are utilized the least. The utilization of an invocation that has idle workers below
it only, while none are executing, equals that of all other invocations. The heap is therefore only
ordered if times of completion agree with utilization across such invocations
(`less_isStrictWeakOrder_iff`).
-/

namespace Bonanza.Scheduler

open BinaryHeap

/-- `invocation`, while in an `idleSynchronizingWorkersChildrenHeap`: it or an invocation below it
has idle workers. Only numbers of workers and children are modelled. -/
structure IdleInvocation where
  executingWorkers : Nat
  idleSynchronizingWorkers : Nat
  idleSynchronizingWorkersChildren : Nat
  lastOperationCompletion : Int
  idle : 0 < idleSynchronizingWorkers + idleSynchronizingWorkersChildren

variable {a b c : IdleInvocation}

/-- `idleSynchronizingWorkersChildrenHeap.Less`. Products do not wrap. -/
def IdleInvocation.less (a b : IdleInvocation) : Bool :=
  let ui := a.executingWorkers * b.idleSynchronizingWorkers
  let uj := b.executingWorkers * a.idleSynchronizingWorkers
  if ui < uj then true
  else if ui > uj then false
  else a.lastOperationCompletion < b.lastOperationCompletion

namespace IdleInvocation

/-- The utilization of an invocation is below that of another one. -/
def Under (a b : IdleInvocation) : Prop :=
  a.executingWorkers * b.idleSynchronizingWorkers < b.executingWorkers * a.idleSynchronizingWorkers

/-- There are no workers from which utilization can be computed. -/
def Unranked (a : IdleInvocation) : Prop :=
  a.executingWorkers = 0 ∧ a.idleSynchronizingWorkers = 0

theorem less_iff : a.less b ↔
    Under a b ∨ ¬Under b a ∧ a.lastOperationCompletion < b.lastOperationCompletion := by
  rw [less, Under, Under]
  split_ifs <;> simp <;> omega

theorem Unranked.not_under (unranked : Unranked a) : ¬Under a b ∧ ¬Under b a := by
  rw [Under, Under, unranked.1, unranked.2]
  omega

theorem Under.splits (under : Under a c) (ranked : ¬Unranked b) : Under a b ∨ Under b c := by
  by_contra neither
  obtain ⟨left, right⟩ := not_or.mp neither
  rw [Under] at under
  rw [Under, not_lt] at left right
  have positive : 0 < c.executingWorkers :=
    Nat.pos_of_mul_pos_right (Nat.lt_of_le_of_lt (Nat.zero_le _) under)
  by_cases none : b.executingWorkers = 0
  · rw [none, Nat.zero_mul, Nat.le_zero, mul_eq_zero] at right
    exact ranked ⟨none, right.resolve_left positive.ne'⟩
  · refine under.not_ge (Nat.le_of_mul_le_mul_left ?_ (Nat.pos_of_ne_zero none))
    calc
      b.executingWorkers * (c.executingWorkers * a.idleSynchronizingWorkers) =
          c.executingWorkers * (b.executingWorkers * a.idleSynchronizingWorkers) :=
        Nat.mul_left_comm ..
      _ ≤ c.executingWorkers * (a.executingWorkers * b.idleSynchronizingWorkers) :=
        Nat.mul_le_mul_left _ left
      _ = a.executingWorkers * (c.executingWorkers * b.idleSynchronizingWorkers) :=
        Nat.mul_left_comm ..
      _ ≤ a.executingWorkers * (b.executingWorkers * c.idleSynchronizingWorkers) :=
        Nat.mul_le_mul_left _ right
      _ = b.executingWorkers * (a.executingWorkers * c.idleSynchronizingWorkers) :=
        Nat.mul_left_comm ..

theorem less_asymm (less : a.less b) : ¬b.less a := by
  rw [less_iff, Under, Under] at *
  omega

end IdleInvocation

open IdleInvocation

/-- Invocations whose utilization cannot be computed are newer than those utilized less, or older
than those utilized more. -/
def CompletionAgrees (invocations : Set IdleInvocation) : Prop :=
  ∀ a ∈ invocations, ∀ b ∈ invocations, ∀ c ∈ invocations, Unranked a → Under b c →
    b.lastOperationCompletion < a.lastOperationCompletion ∨
      a.lastOperationCompletion < c.lastOperationCompletion

variable {invocations : Set IdleInvocation}

/-- The order of invocations in the heap. -/
abbrev lessOn (invocations : Set IdleInvocation) (a b : invocations) : Prop := a.1.less b.1

theorem lessOn_splits (agrees : CompletionAgrees invocations) (a b c : invocations)
    (less : lessOn invocations a c) : lessOn invocations a b ∨ lessOn invocations b c := by
  obtain ⟨a, a_mem⟩ := a
  obtain ⟨b, b_mem⟩ := b
  obtain ⟨c, c_mem⟩ := c
  simp only [lessOn, less_iff] at less ⊢
  rcases less with under | ⟨same, older⟩
  · by_cases unranked : Unranked b
    · have agreed := agrees b b_mem a a_mem c c_mem unranked under
      exact agreed.imp (fun older => .inr ⟨unranked.not_under.1, older⟩)
        fun older => .inr ⟨unranked.not_under.2, older⟩
    · exact (under.splits unranked).imp .inl .inl
  · by_cases later : a.lastOperationCompletion < b.lastOperationCompletion
    · by_cases under : Under b a
      · right
        by_cases unranked : Unranked c
        · have agreed := agrees c c_mem b b_mem a a_mem unranked under
          exact .inr ⟨unranked.not_under.1, agreed.resolve_right older.asymm⟩
        · exact .inl ((under.splits unranked).resolve_right same)
      · exact .inl (.inr ⟨under, later⟩)
    · by_cases under : Under c b
      · left
        by_cases unranked : Unranked a
        · have agreed := agrees a a_mem c c_mem b b_mem unranked under
          exact absurd (agreed.resolve_left older.asymm) later
        · exact .inl ((under.splits unranked).resolve_left same)
      · exact .inr (.inr ⟨under, by omega⟩)

/-- Invocations are ordered, so that the first one of a heap is utilized the least, exactly if times
of completion agree with utilization. -/
theorem less_isStrictWeakOrder_iff (invocations : Set IdleInvocation) :
    (IsStrictWeakOrder invocations (lessOn invocations) ∧
      ∀ h, IsHeap (lessOn invocations) h → ∀ first ∈ h.head?, ∀ other ∈ h,
        ¬lessOn invocations other first) ↔ CompletionAgrees invocations := by
  constructor
  · rintro ⟨order, -⟩ a a_mem b b_mem c c_mem unranked under
    have less : lessOn invocations ⟨b, b_mem⟩ ⟨c, c_mem⟩ := less_iff.mpr (.inl under)
    have splits := lt_or_lt less ⟨a, a_mem⟩
    simpa only [lessOn, less_iff, unranked.not_under, false_or, not_false_eq_true, true_and]
      using splits
  · intro agrees
    have order := isStrictWeakOrder_of_splits (fun _ _ => less_asymm) (lessOn_splits agrees)
    refine ⟨order, fun h heap first found other member => ?_⟩
    obtain ⟨i, located⟩ := List.mem_iff_getElem?.mp member
    exact heap.not_lt_first (List.head?_eq_getElem? ▸ found) i located

/-- None of three invocations can be the first one of a heap. -/
theorem less_has_cycle :
    let a : IdleInvocation := ⟨0, 0, 1, 2, by decide⟩
    let b : IdleInvocation := ⟨1, 2, 0, 3, by decide⟩
    let c : IdleInvocation := ⟨1, 1, 0, 1, by decide⟩
    ∀ first ∈ [a, b, c], ∃ other ∈ [a, b, c], other.less first := by
  decide

end Bonanza.Scheduler
