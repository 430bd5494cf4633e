import Bonanza.Lib.LockDiscipline

/-! # The lock of the build queue

The paths through the calls of `InMemoryBuildQueue`, of which the conditions are left open. Cleanups
performed while acquiring the lock do not acquire or release it. All calls handle the lock properly,
except that `WaitExecution()` acquires the lock a second time if the operation exists
(`lockDisciplined_iff`).
-/

namespace Bonanza.Scheduler.Locking

open LockDiscipline

/-- Commands performed in order. -/
def block (commands : List Command) : Command := commands.foldr .seq .skip

/-- One of several commands. -/
def select (commands : List Command) (otherwise : Command) : Command :=
  commands.foldr .choose otherwise

/-- Return if some condition holds. -/
def mayReturn : Command := .choose .ret .skip

/-- Acquire the lock. -/
def enter : Command := .act .enter

/-- Release the lock. -/
def leave : Command := .act .leave

/-- Return the result of a function. -/
def returning (function : Command) : Command := .seq function .ret

/-- The part of a function that follows `bq.enter()` and `defer bq.leave()`. -/
def locked (body : Command) : Command := block [enter, .call body leave, .ret]

/-- `operation.waitExecution()` -/
def waitExecution : Command :=
  .call (.loop (block [
    -- The task has failed.
    mayReturn,
    leave, .act .send,
    -- The task has completed, or sending has failed.
    .choose (block [enter, .ret]) .skip,
    .act .wait,
    select [block [enter, .ret], enter] enter])) .skip

/-- `worker.getNextTask()` -/
def getNextTask : Command :=
  .call (block [
    -- The worker prefers being idle, a task is queued, or the call should not block.
    mayReturn, mayReturn, mayReturn,
    .loop (select [
      -- The worker is drained.
      block [leave, .act .wait, select [block [enter, .ret], block [enter, .ret]] enter],
      -- A task is queued.
      .ret]
      (block [leave, .act .wait,
        select [block [enter, mayReturn, .ret], block [enter, .ret]]
          (block [enter, mayReturn])]))]) .skip

/-- `worker.getCurrentOrNextTask()` -/
def getCurrentOrNextTask : Command := .call (block [mayReturn, returning getNextTask]) .skip

/-- The locking done by `Execute`. -/
def execute : Command :=
  .call (block [
    -- There is no action, or it cannot be routed or marshaled.
    mayReturn, mayReturn, mayReturn, mayReturn,
    locked (select [
      -- The task exists, with or without an operation for the invocation.
      returning waitExecution, returning waitExecution,
      -- No workers exist for the platform.
      .ret]
      (returning waitExecution))]) .skip

/-- The call, given whether the operation exists once the lock is acquired. -/
def waitExecutionCall (registered : Bool) : Command :=
  let found := block [enter, .choose (block [.call (returning waitExecution) leave, .ret]) .skip]
  let missing := block [leave, .ret]
  .call (block [enter, if registered then found else missing, .loop (.choose missing found)]) .skip

/-- The locking done by `Synchronize`. -/
def synchronize : Command :=
  .call (block [
    -- The public keys are missing or unsorted.
    mayReturn, mayReturn,
    locked (block [
      -- Keys cannot be rotated, belong to different platform queues, are invalid or unverified.
      mayReturn, mayReturn, mayReturn, mayReturn,
      -- The size class is rejected, or the worker is already synchronizing.
      mayReturn, mayReturn,
      select [
        returning getCurrentOrNextTask,
        -- The task is rejected, or was not the right one.
        select [returning getCurrentOrNextTask, .ret] .skip,
        -- The task is executing.
        .choose (returning getCurrentOrNextTask) .ret,
        -- The task has completed.
        .choose (returning getCurrentOrNextTask) .skip]
        .ret,
      returning getNextTask])]) .skip

/-- The locking done by `KillOperations`. -/
def killOperations : Command :=
  .call (block [
    mayReturn,
    select [
      block [enter, .choose (block [leave, .ret]) .skip, leave, .ret],
      locked (block [mayReturn, mayReturn, .ret])]
      .ret]) .skip

/-- The calls of the build queue. -/
inductive Call
  | execute
  | waitExecution (name : String)
  | synchronize
  | killOperations
  deriving DecidableEq, Repr

/-- The names of the operations that exist. -/
structure InMemoryBuildQueue where
  operationsNameMap : List String

/-- The command of a call, if it acquires the lock while the build queue is in a state. -/
def InMemoryBuildQueue.command (bq : InMemoryBuildQueue) : Call → Command
  | .execute => execute
  | .waitExecution name => waitExecutionCall (bq.operationsNameMap.contains name)
  | .synchronize => synchronize
  | .killOperations => killOperations

/-- On all paths, the lock is handled properly and not held upon return. -/
def LockDisciplined (command : Command) : Prop :=
  ∀ actions status, Trace command actions status →
    Disciplined false actions ∧ (status ≠ .running → after false actions = false)

theorem lockDisciplined_of_safe {command : Command}
    (checked : safe command (!·) (!·) false = true) : LockDisciplined command := by
  intro actions status trace
  obtain ⟨disciplined, finishes, returns⟩ := disciplined_of_safe trace checked
  refine ⟨disciplined, fun ended => ?_⟩
  cases status with
  | running => exact absurd rfl ended
  | finished => exact Bool.not_eq_true' _ ▸ finishes rfl
  | returned => exact Bool.not_eq_true' _ ▸ returns rfl

theorem not_lockDisciplined_waitExecutionCall : ¬ LockDisciplined (waitExecutionCall true) := by
  intro disciplined
  have trace : Trace (waitExecutionCall true) [.enter, .enter] .running :=
    .body (.second .act (.first (.second .act .running) nofun))
  exact nomatch (disciplined _ _ trace).1.2.1

/-- All calls handle the lock properly, unless they wait for an operation that exists. -/
theorem lockDisciplined_iff (bq : InMemoryBuildQueue) (call : Call) :
    LockDisciplined (bq.command call) ↔
      ∀ name ∈ bq.operationsNameMap, call ≠ .waitExecution name := by
  cases call with
  | execute =>
    have checked : safe execute (!·) (!·) false = true := by decide
    exact ⟨fun _ _ _ => nofun, fun _ => lockDisciplined_of_safe checked⟩
  | synchronize =>
    have checked : safe synchronize (!·) (!·) false = true := by decide
    exact ⟨fun _ _ _ => nofun, fun _ => lockDisciplined_of_safe checked⟩
  | killOperations =>
    have checked : safe killOperations (!·) (!·) false = true := by decide
    exact ⟨fun _ _ _ => nofun, fun _ => lockDisciplined_of_safe checked⟩
  | waitExecution name =>
    by_cases found : name ∈ bq.operationsNameMap
    · refine ⟨fun disciplined => ?_, fun absent => absurd rfl (absent name found)⟩
      rw [InMemoryBuildQueue.command, List.contains_iff_mem.mpr found] at disciplined
      exact absurd disciplined not_lockDisciplined_waitExecutionCall
    · refine ⟨fun _ other member same => ?_, fun _ => ?_⟩
      · cases same
        exact found member
      · rw [InMemoryBuildQueue.command, Bool.eq_false_iff.mpr (mt List.contains_iff_mem.mp found)]
        exact lockDisciplined_of_safe (by decide)

/-- Waiting for the only operation acquires the lock twice. -/
theorem waitExecution_deadlocks :
    ¬ LockDisciplined
      ((InMemoryBuildQueue.mk ["operation"]).command (.waitExecution "operation")) :=
  not_lockDisciplined_waitExecutionCall

end Bonanza.Scheduler.Locking
