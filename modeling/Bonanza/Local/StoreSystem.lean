import Bonanza.Lib.Transition
import Bonanza.Local.RecordArray

/-! # The local object store across crashes

The parts of the local object store that decide which objects can be found after a restart: writers,
the reference-location map on its block device, the epoch list and the periodic syncer. Writers and
the syncer hold the lock while they use the epoch list, so that their steps interleave.

The ghost variables `written` and `durable` say which blobs have been stored, and which of them a
finished data synchronization covers.
-/

namespace Bonanza.Local

open LossyMap Object

/-- What a device may hold at every position, now or after a crash. -/
abbrev Held (Device : Type*) := Device → UInt64 → Set (List UInt8)

/-- Reads return what was written to a position, or was there initially. A failed write may have
taken effect. -/
structure BlockDevice.Lawful {Device : Type*} (device : BlockDevice Device)
    (held : Held Device) : Prop where
  read : ∀ state index bytes, device.readAt state index = .ok bytes → bytes ∈ held state index
  write : ∀ state index bytes other, ∀ found ∈ held (device.writeAt state index bytes).2 other,
    found ∈ held state other ∨ other = index ∧ found = bytes

/-- A state obtained from `GetPersistentState`, and the blobs that were durable then. -/
structure Snapshot where
  state : PersistentState
  durable : List Blob

/-- The hash seeds of epochs that were persisted. -/
def Snapshot.hashSeeds (snapshot : Snapshot) : List UInt64 :=
  snapshot.state.epochs.map (·.hashSeed)

/-- Where the periodic syncer is in `ProcessLocationsChanged`. -/
inductive SyncerPhase where
  /-- Waiting for locations to change. -/
  | idle
  /-- `NotifySyncStarting` has been called, and the data syncer is not running. -/
  | notified
  /-- The data syncer is running, and started when `cover` had been written. -/
  | syncing (cover : List Blob)
  /-- The data syncer has succeeded. -/
  | synced
  /-- `NotifySyncCompleted` has been called. -/
  | completed
  /-- A state was obtained from `GetPersistentState`, and is being written. -/
  | writing (snapshot : Snapshot)

/-- The state of the store, with ghost variables. -/
structure StoreState (Device : Type*) where
  epochList : PersistentEpochList
  device : Device
  phase : SyncerPhase
  persisted : Snapshot
  written : List Blob
  durable : List Blob
  usedSeeds : List UInt64

/-- Steps of writers, of the periodic syncer and of the environment. -/
inductive StoreEvent (Device : Type*) where
  /-- `LocationBlobMap.Put` finishes. -/
  | blobWritten (blob : Blob)
  /-- The part of `maybeWriteObject` that holds the lock. -/
  | finalizeWrite (blob : Blob) (hashSeed : UInt64)
  | discardUpToLocation (location : UInt64)
  | notifySyncStarting (isFinalSync : Bool)
  | dataSyncStarted
  | dataSyncFailed
  | dataSyncFinished
  | notifySyncCompleted
  | getPersistentState
  | writePersistentStateFailed
  | writePersistentStateFinished
  /-- A crash that leaves the record device in the given state, and a restart. -/
  | crash (survivor : Device)

section Step

variable {Device : Type*} (device : BlockDevice Device) (p : Parameters FlatReference UInt64)
  (maximumLocationSpan : UInt64)

/-- The map from references to locations. -/
abbrev referenceLocationMap : HashMap Device FlatReference UInt64 EpochIDResolver :=
  newHashMap (blockDeviceBackedLocationRecordArray device) p

/-- The state of a store that has no state file yet. -/
def newPersistentState : PersistentState where
  minimumEpochID := 1
  minimumLocation := 0
  epochs := []

/-- A store that has just been created. -/
def initialStore (initial : Device) : StoreState Device where
  epochList := newPersistentEpochList maximumLocationSpan newPersistentState
  device := initial
  phase := .idle
  persisted := ⟨newPersistentState, []⟩
  written := []
  durable := []
  usedSeeds := []

/-- The location at which a blob ends, as `maybeWriteObject` computes it. -/
def Blob.endLocation (blob : Blob) : UInt64 := blob.location + blob.reference.getSizeBytes.toUInt64

/-- The part of `maybeWriteObject` after the blob was written. -/
def finalizeWrite (state : StoreState Device) (blob : Blob) (hashSeed : UInt64) :
    StoreState Device :=
  let usedSeeds := if state.epochList.drawsSeed blob.endLocation then hashSeed :: state.usedSeeds
    else state.usedSeeds
  match state.epochList.finalizeWriteUpToLocation blob.endLocation hashSeed with
  | (.error _, epochList) => { state with epochList, usedSeeds }
  | (.ok (), epochList) =>
    { state with
      epochList, usedSeeds
      device := ((referenceLocationMap device p).put state.device blob.reference blob.location
        epochList.resolver).2 }

/-- One step. The syncer calls the epoch list as `notifyAndSyncDataLocked` and
`writePersistentStateRetrying` do, and may synchronize again before obtaining the state, as on
shutdown. -/
def storeStep (state : StoreState Device) : StoreEvent Device → Option (StoreState Device)
  | .blobWritten blob => some { state with written := blob :: state.written }
  | .finalizeWrite blob hashSeed =>
    if blob ∈ state.written then some (finalizeWrite device p state blob hashSeed) else none
  | .discardUpToLocation location =>
    some { state with epochList := state.epochList.discardUpToLocation location }
  | .notifySyncStarting isFinalSync =>
    match state.phase with
    | .idle | .completed =>
      some { state with
        epochList := state.epochList.notifySyncStarting isFinalSync
        phase := .notified }
    | _ => none
  | .dataSyncStarted =>
    match state.phase with
    | .notified => some { state with phase := .syncing state.written }
    | _ => none
  | .dataSyncFailed =>
    match state.phase with
    | .syncing _ => some { state with phase := .notified }
    | _ => none
  | .dataSyncFinished =>
    match state.phase with
    | .syncing cover => some { state with phase := .synced, durable := cover ++ state.durable }
    | _ => none
  | .notifySyncCompleted =>
    match state.phase with
    | .synced =>
      some { state with epochList := state.epochList.notifySyncCompleted, phase := .completed }
    | _ => none
  | .getPersistentState =>
    match state.phase with
    | .completed =>
      some { state with
        phase := .writing ⟨state.epochList.getPersistentState, state.durable⟩ }
    | _ => none
  | .writePersistentStateFailed =>
    match state.phase with
    | .writing _ => some { state with phase := .completed }
    | _ => none
  | .writePersistentStateFinished =>
    match state.phase with
    | .writing snapshot => some { state with phase := .idle, persisted := snapshot }
    | _ => none
  | .crash survivor =>
    some { state with
      epochList := newPersistentEpochList maximumLocationSpan state.persisted.state
      device := survivor
      phase := .idle
      written := state.durable }

end Step

/-- A hash seed that was not drawn before, and that no initial record happens to match. -/
def FreshSeed {Device : Type*} (held : Held Device) (initial : Device)
    (state : StoreState Device) (hashSeed : UInt64) : Prop :=
  hashSeed ∉ state.usedSeeds ∧
    ∀ index, ∀ bytes ∈ held initial index, ¬ ChecksumMatches bytes hashSeed

/-- Hash seeds are fresh when drawn, and positions of the record device survive a crash with
something they held. -/
def Permitted {Device : Type*} (held : Held Device) (initial : Device)
    (state : StoreState Device) : StoreEvent Device → Prop
  | .finalizeWrite blob hashSeed => state.epochList.drawsSeed blob.endLocation = true →
      FreshSeed held initial state hashSeed
  | .crash survivor => ∀ index, held survivor index ⊆ held state.device index
  | _ => True

end Bonanza.Local
