import Bonanza.Local.EpochWindow

/-! # Waking up the periodic syncer

`GetLocationsChangedWakeup` should return a channel that triggers as long as
there is an epoch that no completed synchronization covers. A write that does
not progress the maximum location can create such an epoch without unblocking
the channel (`finalizeWriteUpToLocation_misses_wakeup`). No other call does:
the channel triggers throughout exactly those runs in which this does not happen
(`wakeupPending_iff_notifiesSyncer`).
-/

namespace Bonanza.Local

open PersistentEpochList


/-- The channel is closed exactly when the source considers it not to block. -/
def NotificationChannel.Consistent (nc : NotificationChannel) : Prop := nc.isBlocking = !nc.closed

theorem consistent_newNotificationChannel : newNotificationChannel.Consistent := rfl

variable {nc : NotificationChannel} (consistent : nc.Consistent)

include consistent

theorem NotificationChannel.Consistent.block : nc.block.Consistent := by
  unfold NotificationChannel.block
  split
  · rfl
  · exact consistent

theorem NotificationChannel.Consistent.unblock : nc.unblock.Consistent := by
  unfold NotificationChannel.unblock
  split
  · rfl
  · exact consistent

theorem NotificationChannel.Consistent.closed_unblock : nc.unblock.closed = true := by
  unfold NotificationChannel.unblock
  cases blocking : nc.isBlocking with
  | true => rfl
  | false => simpa [Consistent, blocking] using consistent

omit consistent

namespace PersistentEpochList

/-- While an epoch is not covered by a completed synchronization, the channel of
`GetLocationsChangedWakeup` triggers. -/
def WakeupPending (el : PersistentEpochList) : Prop :=
  el.epochs.length > el.synchronizedEpochs → el.getLocationsChangedWakeup = true

/-- The call is not a write that creates an epoch without progressing the maximum
location while the channel blocks. -/
def NotifiesSyncer (el : PersistentEpochList) : EpochEvent → Prop
  | .finalizeWriteUpToLocation location _ =>
    ¬ (el.closedForWriting = false ∧ ¬ el.Progresses location ∧
      el.epochs.length = el.synchronizingEpochs ∧ el.locationsChangedWakeup.isBlocking = true)
  | _ => True

/-- What holds of every list, whatever locations are written. -/
structure Tracked (el : PersistentEpochList) : Prop where
  valid : el.window.Valid
  consistent : el.locationsChangedWakeup.Consistent

variable {el : PersistentEpochList}

theorem locationsChangedWakeup_progress (location hashSeed : UInt64) :
    (el.progress location hashSeed).locationsChangedWakeup = el.locationsChangedWakeup.unblock := by
  simp only [progress, unblockWakeup, pruneStaleEpochs, prune, limitSpan, extendEpoch]
  congr 1
  split <;> split <;> split <;> rfl

theorem locationsChangedWakeup_reloadEpochs (maximumLocation : UInt64)
    (epochs : List PersistedEpoch) :
    (el.reloadEpochs maximumLocation epochs).locationsChangedWakeup = el.locationsChangedWakeup := by
  induction epochs generalizing el maximumLocation with
  | nil => rfl
  | cons epoch epochs ih =>
    rw [reloadEpochs, ih]
    split <;> rfl

/-- Every call keeps track of the channel. -/
theorem Tracked.apply (tracked : el.Tracked) (event : EpochEvent) : (el.apply event).Tracked := by
  obtain ⟨valid, consistent⟩ := tracked
  cases event with
  | finalizeWriteUpToLocation location hashSeed =>
    rw [PersistentEpochList.apply]
    constructor
    · cases succeeded : (el.finalizeWriteUpToLocation location hashSeed).1 with
      | ok =>
        obtain ⟨first, second, window⟩ := window_finalizeWriteUpToLocation valid succeeded
        rw [window]
        exact ((valid.discard first).create hashSeed).discard second
      | error status =>
        rcases el.finalizeWriteUpToLocation_cases location hashSeed with
          ⟨_, result⟩ | ⟨_, _, result⟩ | ⟨_, _, _, result⟩ | ⟨_, _, _, result⟩ <;>
          rw [result] at succeeded ⊢
        · exact valid
        all_goals cases succeeded
    · rcases el.finalizeWriteUpToLocation_cases location hashSeed with
        ⟨_, result⟩ | ⟨_, _, result⟩ | ⟨_, _, _, result⟩ | ⟨_, _, _, result⟩ <;> rw [result]
      · exact consistent
      · rw [locationsChangedWakeup_progress]
        exact consistent.unblock
      · exact consistent
      · exact consistent
  | discardUpToLocation location =>
    obtain ⟨count, window⟩ := el.window_discardUpToLocation location
    refine ⟨?_, ?_⟩
    · rw [PersistentEpochList.apply, window]
      exact valid.discard count
    · simp only [PersistentEpochList.apply, discardUpToLocation]
      split
      · exact consistent.unblock
      · exact consistent
  | notifySyncStarting isFinalSync =>
    refine ⟨?_, consistent⟩
    rw [PersistentEpochList.apply, window_notifySyncStarting]
    exact valid.startSync
  | notifySyncCompleted =>
    refine ⟨valid.completeSync, ?_⟩
    simp only [PersistentEpochList.apply, notifySyncCompleted]
    split
    · exact consistent.block
    · exact consistent

/-- The channel wrongly blocks only after a write that creates an epoch without progressing the
maximum location. -/
theorem WakeupPending.apply_iff (tracked : el.Tracked) (pending : el.WakeupPending)
    (event : EpochEvent) : (el.apply event).WakeupPending ↔ el.NotifiesSyncer event := by
  obtain ⟨valid, consistent⟩ := tracked
  cases event with
  | finalizeWriteUpToLocation location hashSeed =>
    rw [apply]
    rcases el.finalizeWriteUpToLocation_cases location hashSeed with
      ⟨closed, result⟩ | ⟨_, progresses, result⟩ | ⟨accepting, lower, idle, result⟩ |
        ⟨_, _, unsealed, result⟩ <;> rw [result]
    · simpa [NotifiesSyncer, closed] using pending
    · simp only [NotifiesSyncer, progresses, not_true_eq_false, false_and, and_false,
        not_false_eq_true, iff_true]
      intro _
      rw [getLocationsChangedWakeup, locationsChangedWakeup_progress]
      exact consistent.closed_unblock
    · -- The new epoch is not covered, so all depends on the channel as it was.
      have uncovered : (el.appendEpoch hashSeed el.maximumLocation).epochs.length >
          el.synchronizedEpochs := by
        have := valid.synchronized_le
        simp only [window, appendEpoch, List.length_append, List.length_singleton] at *
        omega
      have blocking : el.locationsChangedWakeup.isBlocking =
        !el.locationsChangedWakeup.closed := consistent
      simp only [NotifiesSyncer, accepting, lower, idle, blocking, not_false_eq_true, true_and]
      constructor
      · intro triggers
        simpa [getLocationsChangedWakeup, appendEpoch] using triggers uncovered
      · intro triggers _
        simpa [getLocationsChangedWakeup, appendEpoch] using triggers
    · simpa [NotifiesSyncer, unsealed] using pending
  | discardUpToLocation location =>
    simp only [NotifiesSyncer, iff_true, apply, discardUpToLocation]
    split
    · exact fun _ => consistent.closed_unblock
    · exact pending
  | notifySyncStarting isFinalSync => exact ⟨fun _ => trivial, fun _ => pending⟩
  | notifySyncCompleted =>
    simp only [NotifiesSyncer, iff_true]
    intro uncovered
    have covered := valid.synchronized_le
    have beyond : el.epochs.length > el.synchronizingEpochs := uncovered
    simp only [window] at covered
    simp only [getLocationsChangedWakeup, apply, notifySyncCompleted, if_neg (Nat.ne_of_lt beyond)]
    exact pending (by omega)

end PersistentEpochList

theorem tracked_newPersistentEpochList (maximumLocationSpan : UInt64) (state : PersistentState) :
    (newPersistentEpochList maximumLocationSpan state).Tracked := by
  refine ⟨(newPersistentEpochList_spec maximumLocationSpan state).1.valid, ?_⟩
  change NotificationChannel.Consistent (reloadEpochs _ _ _).locationsChangedWakeup
  rw [locationsChangedWakeup_reloadEpochs]
  exact consistent_newNotificationChannel

theorem wakeupPending_newPersistentEpochList (maximumLocationSpan : UInt64)
    (state : PersistentState) :
    (newPersistentEpochList maximumLocationSpan state).WakeupPending := by
  intro uncovered
  rw [(newPersistentEpochList_spec maximumLocationSpan state).2.2] at uncovered
  exact absurd uncovered (Nat.lt_irrefl _)

/-- The channel of `GetLocationsChangedWakeup` triggers whenever an epoch is not
covered by a completed synchronization, throughout exactly those runs in which
no write creates an epoch without progressing the maximum location while the
channel blocks. -/
theorem wakeupPending_iff_notifiesSyncer (maximumLocationSpan : UInt64) (state : PersistentState)
    (events : List EpochEvent) :
    (∀ before after el, events = before ++ after →
      Transition.run epochStep (newPersistentEpochList maximumLocationSpan state) before = some el →
      el.epochs.length > el.synchronizedEpochs → el.getLocationsChangedWakeup = true) ↔
    Transition.Along epochStep PersistentEpochList.NotifiesSyncer
      (newPersistentEpochList maximumLocationSpan state) events := by
  refine (Transition.along_iff_forall_run (fun el event => ⟨el.apply event, rfl⟩) ?_ ?_
    (tracked_newPersistentEpochList maximumLocationSpan state)
    (wakeupPending_newPersistentEpochList maximumLocationSpan state) events).symm
  · intro el event next tracked stepped
    cases stepped
    exact tracked.apply event
  · intro el event next tracked pending stepped
    cases stepped
    exact pending.apply_iff tracked event

/-- A write that finishes after a synchronization, but whose location lies below
one that was finalized before it, leaves an epoch for which nothing wakes up the
periodic syncer. -/
theorem finalizeWriteUpToLocation_misses_wakeup :
    ∃ el, Transition.run epochStep (newPersistentEpochList 1000 ⟨1, 0, []⟩)
        [.finalizeWriteUpToLocation 100 7, .notifySyncStarting false, .notifySyncCompleted,
          .finalizeWriteUpToLocation 50 8] = some el ∧
      el.epochs.length = 2 ∧ el.synchronizedEpochs = 1 ∧ el.getLocationsChangedWakeup = false :=
  ⟨_, rfl, by decide, by decide, by decide⟩

end Bonanza.Local
