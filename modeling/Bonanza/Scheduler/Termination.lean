import Bonanza.Lib.Transition

/-! # Waiting for workers to be terminated

`TerminateWorkers()` waits for the channels that the tasks of the workers had when it was called.
These are also closed if a worker reports an execution event. If it does not do so, it has stopped
executing its task by the time the call returns (`terminateWorkers_returns`). No task is executed by
two workers (`assignments_of_run`).

Channels of a task are numbered: those closed precede the current one.
-/

namespace Bonanza.Scheduler.Termination

open Function Option Transition

/-- A task, with the worker that executes it. -/
structure Task where
  currentWorker : Option Nat := none
  /-- Whether the task has neither completed nor failed. -/
  initialSizeClassLearner : Bool := false
  /-- The number of the channel, which is the number of channels closed. -/
  stageChangeWakeup : Nat := 0

/-- A worker, with the task that it executes. -/
structure Worker where
  currentTask : Option Nat := none
  terminating : Bool := false
  /-- Whether the worker is in a list of idle workers that are synchronizing. -/
  idleSynchronizing : Bool := false

/-- The tasks and workers. -/
structure InMemoryBuildQueue where
  tasks : Nat → Task
  workers : Nat → Worker

namespace InMemoryBuildQueue

variable (bq : InMemoryBuildQueue)

/-- Change a task. -/
def modifyTask (t : Nat) (f : Task → Task) : InMemoryBuildQueue :=
  { bq with tasks := update bq.tasks t (f (bq.tasks t)) }

/-- Change a worker. -/
def modifyWorker (w : Nat) (f : Worker → Worker) : InMemoryBuildQueue :=
  { bq with workers := update bq.workers w (f (bq.workers w)) }

/-- Close the channel, so that the next one is used. -/
def reportNonFinalStageChange (t : Nat) : InMemoryBuildQueue :=
  bq.modifyTask t fun task => { task with stageChangeWakeup := task.stageChangeWakeup + 1 }

/-- Panics if the worker or the task is already associated with another one. -/
def assignUnqueuedTask (w t : Nat) : Option InMemoryBuildQueue :=
  if (bq.workers w).currentTask = none ∧ (bq.tasks t).currentWorker = none then
    some ((bq.modifyTask t ({ · with currentWorker := some w })).modifyWorker w
      ({ · with currentTask := some t, idleSynchronizing := false }))
  else none

/-- Let a worker execute a task that is queued. -/
def assignQueuedTask (w t : Nat) : Option InMemoryBuildQueue :=
  (bq.assignUnqueuedTask w t).map (·.reportNonFinalStageChange t)

/-- Assign the task to a worker that is waiting, or leave it queued. -/
def schedule (t : Nat) : Option Nat → Option InMemoryBuildQueue
  | none => some bq
  | some w => if (bq.workers w).idleSynchronizing then bq.assignUnqueuedTask w t else none

/-- Detach the task from its worker. Queued tasks are first assigned to a worker that only exists
for this purpose. -/
def leaveQueuedOrExecutingStage (t : Nat) : InMemoryBuildQueue :=
  match (bq.tasks t).currentWorker with
  | none => bq.reportNonFinalStageChange t
  | some w => (bq.modifyTask t ({ · with currentWorker := none })).modifyWorker w
      ({ · with currentTask := none })

/-- Close the channel, without creating another one. -/
def markCompleted (t : Nat) : InMemoryBuildQueue :=
  bq.modifyTask t fun task => { task with
    initialSizeClassLearner := false, stageChangeWakeup := task.stageChangeWakeup + 1 }

/-- Complete a task, or execute it once more on the worker given, if any. -/
def complete (t : Nat) : Option (Option Nat) → Option InMemoryBuildQueue
  | none => some ((bq.leaveQueuedOrExecutingStage t).markCompleted t)
  | some choice =>
    ((bq.leaveQueuedOrExecutingStage t).schedule t choice).map (·.reportNonFinalStageChange t)

/-- Complete a task that is queued or executing. -/
def fail (t : Nat) : InMemoryBuildQueue := (bq.leaveQueuedOrExecutingStage t).markCompleted t

/-- Mark workers as terminating. Those that are idle no longer wait for tasks. -/
def markWorkersTerminating (pattern : Nat → Bool) : InMemoryBuildQueue :=
  { bq with workers := fun w => if pattern w then
      { bq.workers w with terminating := true, idleSynchronizing := false } else bq.workers w }

/-- All channels for which `TerminateWorkers()` waits have been closed. -/
def TerminateWorkersReturns (pattern : Nat → Bool) (bq' : InMemoryBuildQueue) : Prop :=
  ∀ w t, pattern w = true → (bq.workers w).currentTask = some t →
    (bq.tasks t).stageChangeWakeup < (bq'.tasks t).stageChangeWakeup

end InMemoryBuildQueue

/-- What may happen to the queue. -/
inductive Event
  /-- Create a task, and schedule it on the given worker if one is waiting. -/
  | execute (t : Nat) (choice : Option Nat)
  | startWaiting (w : Nat)
  | stopWaiting (w : Nat)
  /-- A worker that is synchronizing picks a task that is queued. -/
  | assignNextQueuedTask (w t : Nat)
  | executionEvent (w : Nat)
  | complete (w : Nat) (retry : Option (Option Nat))
  | fail (t : Nat)
  | terminateWorkers (pattern : Nat → Bool)

/-- Perform an event. It is not enabled if it would cause a panic. -/
def step (bq : InMemoryBuildQueue) : Event → Option InMemoryBuildQueue
  | .execute t choice =>
    if (bq.tasks t).initialSizeClassLearner then none
    else (bq.modifyTask t ({ · with initialSizeClassLearner := true })).schedule t choice
  | .startWaiting w =>
    if (bq.workers w).currentTask = none ∧ (bq.workers w).terminating = false then
      some (bq.modifyWorker w ({ · with idleSynchronizing := true }))
    else none
  | .stopWaiting w => some (bq.modifyWorker w ({ · with idleSynchronizing := false }))
  | .assignNextQueuedTask w t =>
    if (bq.tasks t).initialSizeClassLearner ∧ (bq.workers w).terminating = false then
      bq.assignQueuedTask w t
    else none
  | .executionEvent w => (bq.workers w).currentTask.map bq.reportNonFinalStageChange
  | .complete w retry => (bq.workers w).currentTask.bind (bq.complete · retry)
  | .fail t => if (bq.tasks t).initialSizeClassLearner then some (bq.fail t) else some bq
  | .terminateWorkers pattern => some (bq.markWorkersTerminating pattern)

namespace InMemoryBuildQueue

variable {bq bq' : InMemoryBuildQueue} {w t t' : Nat} {choice : Option Nat} {f : Task → Task}

theorem modifyTask_of_ne (other : t' ≠ t) : (bq.modifyTask t f).tasks t' = bq.tasks t' :=
  update_of_ne other _ _

/-- Workers and tasks are associated with each other, and workers that wait have no task. -/
structure Consistent (bq : InMemoryBuildQueue) : Prop where
  sync : ∀ w t, (bq.workers w).currentTask = some t ↔ (bq.tasks t).currentWorker = some w
  idle : ∀ w, (bq.workers w).idleSynchronizing = true → (bq.workers w).currentTask = none

variable (consistent : bq.Consistent)

include consistent

theorem Consistent.modifyTask (kept : (f (bq.tasks t)).currentWorker = (bq.tasks t).currentWorker) :
    (bq.modifyTask t f).Consistent := by
  refine ⟨fun w t' => (consistent.sync w t').trans ?_, consistent.idle⟩
  by_cases same : t' = t
  · subst same
    simp [InMemoryBuildQueue.modifyTask, kept]
  · simp [InMemoryBuildQueue.modifyTask, update_of_ne same]

theorem Consistent.modifyWorker {f : Worker → Worker}
    (kept : (f (bq.workers w)).currentTask = (bq.workers w).currentTask)
    (idle : (f (bq.workers w)).idleSynchronizing = true → (bq.workers w).currentTask = none) :
    (bq.modifyWorker w f).Consistent := by
  constructor
  · intro w' t
    rw [show ((bq.modifyWorker w f).tasks t) = bq.tasks t from rfl, ← consistent.sync w' t]
    by_cases same : w' = w
    · subst same
      simp [InMemoryBuildQueue.modifyWorker, kept]
    · simp [InMemoryBuildQueue.modifyWorker, update_of_ne same]
  · intro w'
    by_cases same : w' = w
    · subst same
      simpa only [InMemoryBuildQueue.modifyWorker, update_self, kept] using idle
    · simpa only [InMemoryBuildQueue.modifyWorker, update_of_ne same] using consistent.idle w'

theorem Consistent.assignUnqueuedTask (assigned : bq.assignUnqueuedTask w t = some bq') :
    bq'.Consistent ∧ (bq.tasks t).currentWorker = none ∧
      (∀ t', (bq'.tasks t').stageChangeWakeup = (bq.tasks t').stageChangeWakeup) ∧
      ∀ w' ≠ w, bq'.workers w' = bq.workers w' := by
  rw [InMemoryBuildQueue.assignUnqueuedTask] at assigned
  split_ifs at assigned with free
  cases assigned
  refine ⟨⟨fun w' t' => ?_, fun w' => ?_⟩, free.2, fun t' => ?_, fun w' other =>
    update_of_ne other _ _⟩ <;>
    simp [InMemoryBuildQueue.modifyTask, InMemoryBuildQueue.modifyWorker, update_apply]
  · have sync := consistent.sync
    split_ifs with same same' same' <;> grind
  · split_ifs with same
    · exact nofun
    · exact consistent.idle w'
  · split_ifs with same
    · rw [same]
    · rfl

/-- Scheduling tasks keeps workers and tasks consistent. -/
theorem Consistent.schedule (scheduled : bq.schedule t choice = some bq') :
    bq'.Consistent ∧
      (∀ t', (bq'.tasks t').stageChangeWakeup = (bq.tasks t').stageChangeWakeup) ∧
      ∀ w, (bq.workers w).idleSynchronizing = false → bq'.workers w = bq.workers w := by
  cases choice with
  | none =>
    cases scheduled
    exact ⟨consistent, fun _ => rfl, fun _ _ => rfl⟩
  | some w =>
    rw [schedule] at scheduled
    split_ifs at scheduled with waiting
    obtain ⟨consistent', -, wakeups, workers⟩ := consistent.assignUnqueuedTask scheduled
    refine ⟨consistent', wakeups, fun w' idle => workers w' ?_⟩
    rintro rfl
    rw [waiting] at idle
    cases idle

theorem Consistent.leaveQueuedOrExecutingStage (t : Nat) :
    (bq.leaveQueuedOrExecutingStage t).Consistent ∧
      (∀ t' ≠ t, (bq.leaveQueuedOrExecutingStage t).tasks t' = bq.tasks t') ∧
      (∀ w, ((bq.leaveQueuedOrExecutingStage t).workers w).currentTask ≠ some t) ∧
      ∀ w, ((bq.leaveQueuedOrExecutingStage t).workers w).idleSynchronizing =
        (bq.workers w).idleSynchronizing := by
  have executing := fun w => consistent.sync w t
  rw [InMemoryBuildQueue.leaveQueuedOrExecutingStage]
  cases current : (bq.tasks t).currentWorker with
  | none =>
    refine ⟨consistent.modifyTask rfl, fun t' other => update_of_ne other _ _, fun w same => ?_,
      fun _ => rfl⟩
    rw [(executing w).mp same] at current
    cases current
  | some w =>
    have sync := consistent.sync
    refine ⟨⟨fun w' t' => ?_, fun w' => ?_⟩, fun t' other => update_of_ne other _ _,
      fun w' => ?_, fun w' => ?_⟩ <;>
      simp [InMemoryBuildQueue.modifyTask, InMemoryBuildQueue.modifyWorker, update_apply]
    · have assigned := sync w' t'
      split_ifs with same same' same' <;> grind
    · split_ifs with same
      · exact fun _ => rfl
      · exact consistent.idle w'
    · split_ifs with same <;> grind
    · split_ifs with same
      · rw [same]
      · rfl

theorem Consistent.fail (t' : Nat) :
    (bq.fail t').Consistent ∧ ∀ w t, ((bq.fail t').workers w).currentTask = some t →
      ((bq.fail t').tasks t).stageChangeWakeup = (bq.tasks t).stageChangeWakeup := by
  obtain ⟨consistent₁, tasks, detached, -⟩ := consistent.leaveQueuedOrExecutingStage t'
  rw [InMemoryBuildQueue.fail]
  refine ⟨consistent₁.modifyTask rfl, fun w t after => ?_⟩
  have different : t ≠ t' := fun same => detached w (same ▸ after)
  exact congrArg _ ((modifyTask_of_ne different).trans (tasks t different))

/-- A step in which a worker keeps its task only closes its channel if it reports an event. -/
theorem Consistent.step {event : Event} (stepped : step bq event = some bq') :
    bq'.Consistent ∧ ∀ w t, event ≠ .executionEvent w → (bq.workers w).currentTask = some t →
      (bq'.workers w).currentTask = some t →
      (bq'.tasks t).stageChangeWakeup = (bq.tasks t).stageChangeWakeup := by
  cases event with
    rw [Termination.step] at stepped
  | execute t' choice =>
    split_ifs at stepped
    obtain ⟨consistent', wakeups, -⟩ := (consistent.modifyTask rfl).schedule stepped
    refine ⟨consistent', fun w t _ _ _ => (wakeups t).trans ?_⟩
    simp only [InMemoryBuildQueue.modifyTask, update_apply]
    split_ifs with same
    · rw [same]
    · rfl
  | startWaiting w' =>
    split_ifs at stepped with idle
    cases stepped
    exact ⟨consistent.modifyWorker rfl fun _ => idle.1, fun _ _ _ _ _ => rfl⟩
  | stopWaiting w' =>
    cases stepped
    exact ⟨consistent.modifyWorker rfl nofun, fun _ _ _ _ _ => rfl⟩
  | assignNextQueuedTask w' t' =>
    split_ifs at stepped
    obtain ⟨bq₁, assigned, rfl⟩ := map_eq_some_iff.mp stepped
    obtain ⟨consistent₁, unassigned, wakeups, -⟩ := consistent.assignUnqueuedTask assigned
    refine ⟨consistent₁.modifyTask rfl, fun w t _ before _ => ?_⟩
    have different : t ≠ t' := by
      rintro rfl
      rw [(consistent.sync w t).mp before] at unassigned
      cases unassigned
    exact (congrArg _ (modifyTask_of_ne different)).trans (wakeups t)
  | executionEvent w' =>
    obtain ⟨t', current, rfl⟩ := map_eq_some_iff.mp stepped
    refine ⟨consistent.modifyTask rfl, fun w t other before _ => ?_⟩
    have different : t ≠ t' := by
      rintro rfl
      have both := ((consistent.sync w t).mp before).symm.trans ((consistent.sync w' t).mp current)
      exact other (congrArg _ (some.inj both).symm)
    exact congrArg _ (modifyTask_of_ne different)
  | complete w' retry =>
    obtain ⟨t', -, completed⟩ := bind_eq_some_iff.mp stepped
    cases retry with
    | none =>
      cases completed
      exact ⟨(consistent.fail t').1, fun w t _ _ after => (consistent.fail t').2 w t after⟩
    | some choice =>
      obtain ⟨consistent₁, tasks, detached, waiting⟩ := consistent.leaveQueuedOrExecutingStage t'
      obtain ⟨bq₂, scheduled, rfl⟩ := map_eq_some_iff.mp completed
      obtain ⟨consistent₂, wakeups, workers⟩ := consistent₁.schedule scheduled
      refine ⟨consistent₂.modifyTask rfl, fun w t _ before after => ?_⟩
      have different : t ≠ t' := by
        rintro rfl
        refine detached w ((congrArg _ (workers w ?_)).symm.trans after)
        rw [waiting, Bool.eq_false_iff]
        intro idle
        rw [consistent.idle w idle] at before
        cases before
      refine (congrArg _ (modifyTask_of_ne different)).trans ((wakeups t).trans ?_)
      rw [tasks t different]
  | fail t' =>
    split_ifs at stepped <;> cases stepped
    · exact ⟨(consistent.fail t').1, fun w t _ _ after => (consistent.fail t').2 w t after⟩
    · exact ⟨consistent, fun _ _ _ _ _ => rfl⟩
  | terminateWorkers pattern =>
    cases stepped
    refine ⟨⟨fun w t => ?_, fun w => ?_⟩, fun _ _ _ _ _ => rfl⟩
    · refine Iff.trans ?_ (consistent.sync w t)
      rw [markWorkersTerminating]
      dsimp only
      split_ifs <;> rfl
    · rw [markWorkersTerminating]
      dsimp only
      split_ifs
      · exact nofun
      · exact consistent.idle w

end InMemoryBuildQueue

open InMemoryBuildQueue

/-- If `TerminateWorkers()` returns, every worker that was executing a task and did not report an
execution event while doing so has stopped executing that task. -/
theorem terminateWorkers_returns {bq bq' : InMemoryBuildQueue} {pattern : Nat → Bool}
    {events : List Event} {w t : Nat} (consistent : bq.Consistent)
    (reached : run step bq events = some bq')
    (returns : bq.TerminateWorkersReturns pattern bq') (matched : pattern w = true)
    (executing : (bq.workers w).currentTask = some t)
    (silent : Along step (fun bq event =>
      (bq.workers w).currentTask = some t → event ≠ .executionEvent w) bq events) :
    ∃ before after middle, events = before ++ after ∧
      run step bq before = some middle ∧ (middle.workers w).currentTask ≠ some t := by
  have closed := returns w t matched executing
  clear returns
  induction events generalizing bq with
  | nil =>
    cases reached
    exact absurd closed (Nat.lt_irrefl _)
  | cons event events ih =>
    obtain ⟨next, stepped, rest⟩ := (run_cons_eq_some step).mp reached
    obtain ⟨consistent', unchanged⟩ := consistent.step stepped
    by_cases still : (next.workers w).currentTask = some t
    · rw [← unchanged w t (silent.1 executing) executing still] at closed
      obtain ⟨before, after, middle, rfl, reached', stopped⟩ :=
        ih consistent' rest still (silent.2 next stepped) closed
      exact ⟨event :: before, after, middle, rfl,
        (run_cons_eq_some step).mpr ⟨next, stepped, reached'⟩, stopped⟩
    · exact ⟨[event], events, next, rfl, (run_cons_eq_some step).mpr ⟨next, stepped, rfl⟩, still⟩

/-- A build queue with a single worker, which executes the first task. -/
def executingFirst : InMemoryBuildQueue where
  tasks := fun t => if t = 0 then ⟨some 0, true, 0⟩ else {}
  workers := fun w => if w = 0 then { currentTask := some 0 } else {}

theorem executingFirst_currentTask_iff {w t : Nat} :
    (executingFirst.workers w).currentTask = some t ↔ w = 0 ∧ t = 0 := by
  rw [executingFirst]
  dsimp only
  split_ifs with first
  · rw [some.injEq, eq_comm]
    exact (and_iff_right first).symm
  · exact ⟨nofun, fun both => absurd both.1 first⟩

theorem consistent_executingFirst : executingFirst.Consistent := by
  refine ⟨fun w t => executingFirst_currentTask_iff.trans ?_, fun w => ?_⟩
  · rw [executingFirst]
    dsimp only
    split_ifs with first
    · rw [some.injEq, eq_comm]
      exact and_iff_left first
    · exact ⟨fun both => absurd both.2 first, nofun⟩
  · rw [executingFirst]
    dsimp only
    split_ifs
    · exact nofun
    · exact nofun

/-- The only worker completes its task. -/
theorem terminateWorkers_returns_of_complete :
    ∃ before after middle, [Event.complete 0 none] = before ++ after ∧
      run step executingFirst before = some middle ∧
      (middle.workers 0).currentTask ≠ some 0 := by
  have returns :
      executingFirst.TerminateWorkersReturns (fun _ => true) (executingFirst.fail 0) := by
    intro w t _ executing
    obtain ⟨rfl, rfl⟩ := executingFirst_currentTask_iff.mp executing
    decide
  exact terminateWorkers_returns consistent_executingFirst rfl returns rfl rfl
    ⟨fun _ => nofun, fun _ _ => trivial⟩

/-- If the worker reports an execution event, the call returns while the task is being executed. -/
theorem terminateWorkers_returns_early :
    ∃ bq', run step executingFirst [.terminateWorkers fun _ => true, .executionEvent 0] = some bq' ∧
      executingFirst.TerminateWorkersReturns (fun _ => true) bq' ∧
      (bq'.workers 0).currentTask = some 0 := by
  refine ⟨_, rfl, ?_, rfl⟩
  intro w t _ executing
  obtain ⟨rfl, rfl⟩ := executingFirst_currentTask_iff.mp executing
  decide

/-- No task is ever executed by two workers, and a task that is retried can be assigned to any
worker that is waiting. -/
theorem assignments_of_run {bq : InMemoryBuildQueue} {events : List Event}
    (reached : run step ⟨fun _ => {}, fun _ => {}⟩ events = some bq) {w t : Nat}
    (executing : (bq.workers w).currentTask = some t) :
    (∀ w', (bq.workers w').currentTask = some t → w' = w) ∧
      ∀ w', (bq.workers w').idleSynchronizing = true →
        (step bq (.complete w (some (some w')))).isSome := by
  have consistent : bq.Consistent :=
    run_invariant Consistent (fun _ _ _ consistent stepped => (consistent.step stepped).1)
      ⟨fun _ _ => by simp, fun _ _ => rfl⟩ reached
  have assigned := (consistent.sync w t).mp executing
  refine ⟨fun w' executing' => ?_, fun w' idle => ?_⟩
  · exact some.inj (((consistent.sync w' t).mp executing').symm.trans assigned)
  · have free := consistent.idle w' idle
    have different : w' ≠ w := by
      rintro rfl
      rw [free] at executing
      cases executing
    simp [step, complete, leaveQueuedOrExecutingStage, schedule, assignUnqueuedTask, modifyTask,
      modifyWorker, *]

/-- A worker that executes a task, while another one is waiting. -/
theorem assignments_of_waiting :
    ∃ bq, run step ⟨fun _ => {}, fun _ => {}⟩
        [.startWaiting 0, .startWaiting 1, .execute 5 (some 0)] = some bq ∧
      (step bq (.complete 0 (some (some 1)))).isSome := by
  refine ⟨_, rfl, (@assignments_of_run _ [.startWaiting 0, .startWaiting 1, .execute 5 (some 0)]
    rfl 0 5 rfl).2 1 rfl⟩

end Bonanza.Scheduler.Termination
